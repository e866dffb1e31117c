import Braces.CheckError
import Braces.Cpp.Spelling
import Braces.Dict

/-!
# The symbol table

Signatures of functions in the order of their definitions, and the local variables of each routine.
Types only widen: `refineParam` and `refineResult` join one more type into a slot. `finalize`
settles what is still open.
-/

namespace Braces

/-- How an argument is passed. -/
inductive Mode where
  | value | constRef | mutRef
  deriving DecidableEq, Repr

structure Param where
  name : String
  ty : Ty := .unknown
  mode : Mode := .value
  /-- Elements are stored through it, here or in a function it is passed to. -/
  mutated : Bool := false
  /-- The body gives it another value. -/
  reassigned : Bool := false
  deriving DecidableEq, Repr

namespace Param

def declaration (p : Param) : String :=
  let ty := p.ty.declaredName
  let name := Cpp.spell p.name
  match p.mode with
  | .value => s!"{ty} {name}"
  | .constRef => s!"const {ty}& {name}"
  | .mutRef => s!"{ty}& {name}"

/-- Sequences go by reference, unless the body gives the parameter another value. -/
def modeFor (p : Param) : Mode :=
  match p.ty with
  | .list => if p.reassigned then .value else if p.mutated then .mutRef else .constRef
  | .str => if p.reassigned then .value else .constRef
  | _ => .value

def finalize (p : Param) : Param :=
  let p := { p with ty := if p.ty.isKnown then p.ty else .int }
  { p with mode := p.modeFor }

end Param

structure Signature where
  name : String
  params : List Param
  result : Ty
  deriving DecidableEq, Repr

namespace Signature

def declaration (s : Signature) : String :=
  let result := if s.result = .void then Ty.void.cppName else s.result.declaredName
  s!"{result} {Cpp.spell s.name}(" ++ ", ".intercalate (s.params.map Param.declaration) ++ ")"

def finalize (s : Signature) : Signature :=
  { s with
    params := s.params.map Param.finalize
    result := if s.result.isKnown then s.result else .int }

end Signature

structure Local where
  ty : Ty
  /-- Declared at the top of its routine and not where it is first stored to. -/
  hoisted : Bool
  deriving DecidableEq, Repr

structure Table where
  functions : List Signature
  locals : Dict (Dict Local)
  deriving DecidableEq, Repr

namespace Table

def empty : Table := ⟨[], .empty⟩

def signature? (t : Table) (name : String) : Option Signature :=
  t.functions.find? (·.name = name)

/-- The parameters of a routine. The entry routine has none. -/
def paramsOf (t : Table) (routine : String) : List Param :=
  ((t.signature? routine).map (·.params)).getD []

/-- Adds a signature at the end. -/
def declare (t : Table) (s : Signature) : Except CheckError Table :=
  if (t.signature? s.name).isSome then .error (.duplicateFunction s.name)
  else .ok { t with functions := t.functions ++ [s] }

/-- Changes the signature of one function. -/
def modify (t : Table) (name : String) (f : Signature → Signature) : Table :=
  { t with functions := t.functions.map fun s => if s.name = name then f s else s }

/-- Changes one parameter of a function. -/
def modifyParam (t : Table) (name : String) (index : Nat) (f : Param → Param) : Table :=
  t.modify name fun s => { s with params := s.params.modify index f }

/-- Joins a type into a parameter, and says whether that changed it. -/
def refineParam (t : Table) (name : String) (index : Nat) (ty : Ty) : Table × Bool :=
  (t.modifyParam name index fun p => { p with ty := p.ty.join ty },
    (t.paramsOf name)[index]?.any fun p => p.ty.join ty ≠ p.ty)

/-- Joins a type into the result of a function, unless it has none. -/
def refineResult (t : Table) (name : String) (ty : Ty) : Table × Bool :=
  let refined (s : Signature) : Ty := if s.result = .void then .void else s.result.join ty
  (t.modify name fun s => { s with result := refined s },
    (t.signature? name).any fun s => refined s ≠ s.result)

def setLocals (t : Table) (routine : String) (locals : Dict Local) : Table :=
  { t with locals := t.locals.insert routine locals }

def localsOf? (t : Table) (routine : String) : Option (Dict Local) := t.locals.get? routine

def local? (t : Table) (routine name : String) : Option Local :=
  (t.localsOf? routine).bind (·.get? name)

/-- The locals that are declared at the top of a routine, by name. -/
def hoisted (t : Table) (routine : String) : List (String × Local) :=
  ((t.localsOf? routine).map (·.entries)).getD [] |>.filter (·.2.hoisted)

/-- Settles what is still open: what is unknown is an integer, and modes follow the types. -/
def finalize (t : Table) : Table := { t with functions := t.functions.map Signature.finalize }

/-- The type of an expression, given the types of its variables. -/
def typeOf (t : Table) (lookup : String → Ty) : Expr → Ty
  | .int _ | .len _ => .int
  | .index target _ => if t.typeOf lookup target = .str then .str else .int
  | .float _ => .float
  | .str _ => .str
  | .bool _ => .bool
  | .var name => lookup name
  | .binary op l r =>
    if op.isComparison || op.isLogical then .bool
    else if op = .div then .float
    else .arithmetic (t.typeOf lookup l) (t.typeOf lookup r)
  | .unary op e =>
    if op = .not then .bool
    else
      let ty := t.typeOf lookup e
      if ty = .bool then .int else ty
  | .list _ | .range _ _ _ => .list
  | .call name _ =>
    if name = Expr.strName then .str else ((t.signature? name).map (·.result)).getD .unknown

end Table

end Braces
