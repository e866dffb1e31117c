import Braces.Expr

/-!
# Statements and programs

A program is a sequence of statements. Its functions are the definitions at the top level, and its
entry statements are what the emitted program runs: the free statements in order, with the guard on
the module's name replaced by its body, and the call of the entry function by the function's body.
-/

namespace Braces

inductive Stmt where
  | assign (name : String) (value : Expr)
  | assignAt (target position value : Expr)
  | print (args : List Expr)
  | ifElse (cond : Expr) (body : List Stmt) (orelse : Option (List Stmt))
  | whileLoop (cond : Expr) (body : List Stmt)
  | forLoop (name : String) (iterable : Expr) (body : List Stmt)
  | funcDef (name : String) (params : List String) (body : List Stmt)
  | ret (value : Option Expr)
  | eval (e : Expr)
  | pass
  | break_
  | continue_
  deriving Repr, Inhabited

/-- A function definition at the top level. -/
structure Function where
  name : String
  params : List String
  body : List Stmt
  deriving Repr, Inhabited

abbrev Program := List Stmt

/-- The function whose body is run when the program starts. -/
def entryName : String := "main"

/-- The variable that holds the module's name. -/
def moduleName : String := "__name__"

namespace Expr

def isVar (name : String) : Expr → Bool
  | .var n => n = name
  | _ => false

/-- Whether a condition compares the module's name with something. -/
def isEntryGuard : Expr → Bool
  | .binary .equal l r => l.isVar moduleName || r.isVar moduleName
  | _ => false

/-- Whether an expression calls the entry function. -/
def isEntryCall : Expr → Bool
  | .call name args => name = entryName && args.isEmpty
  | _ => false

end Expr

namespace Program

/-- The function that a statement defines. -/
def function? : Stmt → Option Function
  | .funcDef name params body => some ⟨name, params, body⟩
  | _ => none

/-- Function definitions at the top level, in order. -/
def functions (p : Program) : List Function := p.filterMap function?

def entryFunction? (p : Program) : Option Function := p.functions.find? (·.name = entryName)

/-- Functions other than those of the entry function's name. -/
def routines (p : Program) : List Function := p.functions.filter (·.name ≠ entryName)

mutual

/-- Puts the body of the entry function where it is first called. The flag says whether that has
happened before; later calls are dropped. -/
def splice (main? : Option (List Stmt)) (spliced : Bool) : List Stmt → List Stmt × Bool
  | [] => ([], spliced)
  | s :: rest =>
    let (here, spliced) := spliceStmt main? spliced s
    let (later, spliced) := splice main? spliced rest
    (here ++ later, spliced)

def spliceStmt (main? : Option (List Stmt)) (spliced : Bool) : Stmt → List Stmt × Bool
  | .funcDef _ _ _ => ([], spliced)
  | .ifElse cond body orelse =>
    if cond.isEntryGuard then splice main? spliced body else ([.ifElse cond body orelse], spliced)
  | .eval e =>
    match main? with
    | some body =>
      if e.isEntryCall then (if spliced then [] else body, true) else ([.eval e], spliced)
    | none => ([.eval e], spliced)
  | s => ([s], spliced)

end

/-- What runs when the program starts. An entry function that is never called runs at the end. -/
def entryStatements (p : Program) : List Stmt :=
  let main? := p.entryFunction?.map (·.body)
  let (stmts, spliced) := splice main? false p
  if spliced then stmts else stmts ++ main?.getD []

end Program

end Braces
