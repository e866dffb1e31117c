import Braces.Infer.Scope
import Braces.Stmt

/-!
# Rounds of inference

One round walks every routine once. It joins the types of arguments into parameters and those of
returned values into results, and computes each routine's locals anew. A round is a function from
tables to tables; a table that a round leaves as it is, is stable.
-/

namespace Braces

/-- The table and the scope of the routine that is walked. -/
structure Visit where
  table : Table
  scope : Scope

namespace Visit

def typeOf (v : Visit) (e : Expr) : Ty := v.table.typeOf v.scope.lookup e

def touch (v : Visit) (name : String) : Visit := { v with scope := v.scope.touch name }

def bind (v : Visit) (name : String) (ty : Ty) (byLoop : Bool) : Visit :=
  { v with scope := v.scope.bind name ty byLoop }

def enter (v : Visit) : Visit := { v with scope := v.scope.enter }

def exit (v : Visit) : Visit := { v with scope := v.scope.exit }

def refineParam (v : Visit) (name : String) (index : Nat) (ty : Ty) : Visit :=
  { v with table := (v.table.refineParam name index ty).1 }

def refineResult (v : Visit) (name : String) (ty : Ty) : Visit :=
  { v with table := (v.table.refineResult name ty).1 }

mutual

/-- Notes the variables that an expression uses and the arguments that its calls pass. -/
def expr : Expr → Visit → Visit
  | .var name, v => v.touch name
  | .binary _ l r, v => expr r (expr l v)
  | .unary _ e, v | .len e, v => expr e v
  | .list elements, v => exprs elements v
  | .index target position, v => expr position (expr target v)
  | .call name args, v => arguments name 0 args v
  | .range start stop step, v => option step (option stop (expr start v))
  | .int _, v | .float _, v | .str _, v | .bool _, v => v

def exprs : List Expr → Visit → Visit
  | [], v => v
  | e :: es, v => exprs es (expr e v)

def option : Option Expr → Visit → Visit
  | none, v => v
  | some e, v => expr e v

def arguments (name : String) (index : Nat) : List Expr → Visit → Visit
  | [], v => v
  | arg :: args, v =>
    let v := expr arg v
    arguments name (index + 1) args (v.refineParam name index (v.typeOf arg))

end

/-- What a loop over a value of this type gives its variable. -/
def elementTy (ty : Ty) : Ty := if ty = .str then .str else .int

mutual

def stmt (routine : String) : Stmt → Visit → Visit
  | .assign name value, v =>
    let v := expr value v
    v.bind name (v.typeOf value) false
  | .assignAt target position value, v => expr value (expr position (expr target v))
  | .print args, v => exprs args v
  | .ifElse cond body orelse, v =>
    otherwise routine orelse (block routine body (expr cond v).enter).exit
  | .whileLoop cond body, v => (block routine body (expr cond v).enter).exit
  | .forLoop name iterable body, v =>
    let v := expr iterable v
    (block routine body (v.enter.bind name (elementTy (v.typeOf iterable)) true)).exit
  | .ret (some e), v =>
    let v := expr e v
    if routine = entryName then v else v.refineResult routine (v.typeOf e)
  | .eval e, v => expr e v
  | .ret none, v | .funcDef _ _ _, v | .pass, v | .break_, v | .continue_, v => v

def block (routine : String) : List Stmt → Visit → Visit
  | [], v => v
  | s :: rest, v => block routine rest (stmt routine s v)

def otherwise (routine : String) : Option (List Stmt) → Visit → Visit
  | none, v => v
  | some body, v => (block routine body v.enter).exit

end

end Visit

namespace Table

/-- Walks one routine. -/
def visit (t : Table) (routine : String) (body : List Stmt) : Table :=
  let v := Visit.block routine body ⟨t, .ofParams (t.paramsOf routine)⟩
  v.table.setLocals routine v.scope.locals

/-- Walks all functions, in order, and then the entry statements. -/
def round (fs : List Function) (entry : List Stmt) (t : Table) : Table :=
  (fs.foldl (fun t f => t.visit f.name f.body) t).visit entryName entry

/-- At most `n` rounds; a stable table ends them. -/
def rounds (fs : List Function) (entry : List Stmt) : Nat → Table → Table
  | 0, t => t
  | n + 1, t =>
    let t' := t.round fs entry
    if t' = t then t' else rounds fs entry n t'

end Table

end Braces
