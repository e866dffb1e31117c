import Braces.Infer.Round
import Braces.Infer.Usage

/-!
# Inference

The symbol table of a program. Definitions are checked first: the entry function takes no
parameters, no other name is defined twice, and no definition is nested in another statement.
-/

namespace Braces

namespace Stmt

mutual

/-- The first function that is defined within a statement. -/
def nestedFunction? : Stmt → Option String
  | .funcDef name _ _ => some name
  | .ifElse _ body orelse => (nestedInBlock? body).or (nestedInElse? orelse)
  | .whileLoop _ body | .forLoop _ _ body => nestedInBlock? body
  | _ => none

def nestedInBlock? : List Stmt → Option String
  | [] => none
  | s :: rest => s.nestedFunction?.or (nestedInBlock? rest)

def nestedInElse? : Option (List Stmt) → Option String
  | none => none
  | some body => nestedInBlock? body

end

mutual

/-- Whether a statement returns a value. -/
def returnsValue : Stmt → Bool
  | .ret value => value.isSome
  | .ifElse _ body orelse => blockReturnsValue body || elseReturnsValue orelse
  | .whileLoop _ body | .forLoop _ _ body => blockReturnsValue body
  | _ => false

def blockReturnsValue : List Stmt → Bool
  | [] => false
  | s :: rest => s.returnsValue || blockReturnsValue rest

def elseReturnsValue : Option (List Stmt) → Bool
  | none => false
  | some body => blockReturnsValue body

end

end Stmt

/-- The signature of a function before anything is known of its parameters. -/
def Function.signature (f : Function) : Signature where
  name := f.name
  params := f.params.map fun name => { name }
  result := if Stmt.blockReturnsValue f.body then .unknown else .void

namespace Program

/-- The most rounds of inference. -/
def maxRounds : Nat := 32

/-- A table with the signatures of all functions but the entry function. -/
def declared (p : Program) : Except CheckError Table :=
  p.routines.foldlM (fun t f => t.declare f.signature) Table.empty

/-- The first nested function, in the order in which routines are walked. -/
def nestedFunction? (p : Program) : Option String :=
  (p.routines.findSome? fun f => Stmt.nestedInBlock? f.body).or
    (Stmt.nestedInBlock? p.entryStatements)

/-- The symbol table of a program. -/
def infer (p : Program) : Except CheckError Table := do
  if p.entryFunction?.any (!·.params.isEmpty) then throw .entryParameters
  let t ← p.declared
  match p.nestedFunction? with
  | some name => throw (.nestedFunction name)
  | none =>
    return ((t.markUsage p.routines).rounds p.routines p.entryStatements maxRounds).finalize

end Program

end Braces
