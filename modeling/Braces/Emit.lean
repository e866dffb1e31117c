import Braces.Emit.Stmt

/-!
# Emitting programs

A program and a table become a target unit: prototypes from the table, the functions in their order,
and the entry routine. The table is usually the program's own, but need not be.
-/

namespace Braces

namespace Frame

/-- Declarations at the top of the routine. -/
def reserved (f : Frame) : List Cpp.Stmt :=
  (f.table.hoisted f.routine).map fun (name, v) => .reserve v.ty (.source name)

/-- The variables that are declared before the first statement. -/
def start (f : Frame) (params : List Param) : Progress where
  declared := params.map (·.name) ++ (f.table.hoisted f.routine).map (·.1)
  nextHidden := 0

/-- The body of a routine. -/
def body (f : Frame) (params : List Param) (stmts : List Stmt) :
    Except CheckError (List Cpp.Stmt) := do
  let (cs, _) ← f.block false (f.start params) stmts
  return f.reserved ++ cs

end Frame

namespace Program

def emitFunction (t : Table) (fn : Function) : Except CheckError Cpp.Routine :=
  match t.signature? fn.name with
  | none => throw (.missingSignature fn.name)
  | some s => do return ⟨s, ← Frame.body ⟨t, fn.name⟩ s.params fn.body⟩

/-- The body of the entry routine, which returns zero at its end. -/
def emitEntry (t : Table) (stmts : List Stmt) : Except CheckError (List Cpp.Stmt) := do
  return (← Frame.body ⟨t, entryName⟩ [] stmts) ++ [.ret (some (.int 0))]

/-- The target unit of a program. -/
def emit (p : Program) (t : Table) : Except CheckError Cpp.Unit := do
  let routines ← p.routines.mapM (emitFunction t)
  let entry ← emitEntry t p.entryStatements
  return ⟨t.functions, routines, entry⟩

end Program

end Braces
