import Braces.Cpp.Print
import Braces.Emit
import Braces.Infer
import Braces.Stmt.Read
import Braces.Token.Scan

/-!
# Compiling

From source text to target text, through tokens, program, table and unit. The first failure ends it.
-/

namespace Braces

inductive CompileError where
  | scan (e : ScanError)
  | parse (e : ParseError)
  | check (e : CheckError)
  deriving DecidableEq, Repr

namespace CompileError

/-- The stage that failed. -/
def stage : CompileError → String
  | scan _ => "lex error"
  | parse _ => "syntax error"
  | check _ => "codegen error"

def cause : CompileError → String
  | scan e => e.message
  | parse e => e.message
  | check e => e.message

def message (e : CompileError) : String := e.stage ++ ": " ++ e.cause

end CompileError

/-- The program that a text spells. -/
def readSource (source : String) : Except CompileError Program := do
  let tokens ← (scan source).mapError .scan
  (parse tokens).mapError .parse

/-- The target unit of a program, with the program's own table. -/
def compileProgram (p : Program) : Except CheckError Cpp.Unit := do p.emit (← p.infer)

def compileUnit (source : String) : Except CompileError Cpp.Unit := do
  let p ← readSource source
  (compileProgram p).mapError .check

def compile (source : String) : Except CompileError String :=
  (compileUnit source).map Cpp.Unit.text

end Braces
