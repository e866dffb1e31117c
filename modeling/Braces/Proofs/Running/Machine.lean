import Braces.Proofs.Attempt
import Braces.Proofs.Syntax.Bodies

/-!
# Running statements

What statements do, for any values and operations on them. A routine has variables of its own; a
name that it does not bind is one of the module. Reading a name without a value, or calling a
function that is not defined yet, ends a run, as does an operation without a result. So does the
bound on calls within calls and on the passes of a loop: what has happened until then stays.
-/

namespace Braces

/-- What ends a run before its last statement. -/
inductive Fault where
  | unbound (name : String)
  | raised
  | exhausted
  deriving DecidableEq, Repr

/-- Values, the store that they may refer to, and the operations on them. An operation without a
result raises an error. -/
structure Runtime (V H : Type) where
  int : Int → V
  float : Double → V
  str : String → V
  bool : Bool → V
  none : V
  truth : V → H → Bool
  text : V → H → String
  /-- Operators other than the logical ones. -/
  binary : BinOp → V → V → H → Option (V × H)
  signed : UnOp → V → H → Option (V × H)
  list : List V → H → V × H
  range : V → V → V → H → Option (V × H)
  length : V → H → Option V
  element : V → V → H → Option V
  storeAt : V → V → V → H → Option H
  /-- What a loop over a value finds at a place: nothing, once the value has no more elements. -/
  walked : V → Nat → H → Option (Option V)
  truth_bool : ∀ b h, truth (bool b) h = b
  equal_str : ∀ a b h, binary .equal (str a) (str b) h = some (bool (a = b), h)

/-- The variables in scope, the functions defined so far, the store, and what was printed. -/
structure Memory (V H : Type) where
  vars : String → Option V
  functions : String → Option Function
  heap : H
  printed : List String

abbrev Run (V H : Type) := Attempt Fault (Memory V H)

/-- How a statement ends. -/
inductive Flow (V : Type) where
  | next
  | broke
  | continued
  | returned (v : V)

/-- Where a routine looks names up. -/
inductive Region (V : Type) where
  /-- The variables of the module. -/
  | module
  /-- Its own names are variables in scope, and the others are those of the module. -/
  | call (own : List String) (outer : String → Option V)

namespace Region

variable {V : Type}

def lookup (r : Region V) (vars : String → Option V) (x : String) : Option V :=
  match r with
  | .module => vars x
  | .call own outer => if x ∈ own then vars x else outer x

/-- The variables of the module, seen from a routine. -/
def globals (r : Region V) (vars : String → Option V) : String → Option V :=
  match r with
  | .module => vars
  | .call _ outer => outer

end Region

/-! ## Steps -/

namespace Run

variable {V H α : Type}

/-- Runs an operation on the store. -/
def operate (f : H → Option (α × H)) : Run V H α := do
  let m ← get
  match f m.heap with
  | some (a, h) =>
    set { m with heap := h }
    return a
  | none => throw .raised

/-- Looks at the store. -/
def observe (f : H → α) : Run V H α := operate fun h => some (f h, h)

def read (r : Region V) (x : String) : Run V H V := do
  let m ← get
  match r.lookup m.vars x with
  | some v => return v
  | none => throw (.unbound x)

/-- Variables with one more value. -/
def update (vars : String → Option V) (x : String) (v : V) : String → Option V :=
  fun y => if y = x then some v else vars y

def write (x : String) (v : V) : Run V H Unit :=
  modify fun m => { m with vars := update m.vars x v }

def print (line : String) : Run V H Unit :=
  modify fun m => { m with printed := m.printed ++ [line] }

def define (fn : Function) : Run V H Unit :=
  modify fun m =>
    { m with functions := fun name => if name = fn.name then some fn else m.functions name }

/-- Runs with other variables. However that ends, the variables from before come back. -/
def inScope (vars : String → Option V) (x : Run V H α) : Run V H α :=
  ExceptT.mk fun m => ((x.on { m with vars }).1, { (x.on { m with vars }).2 with vars := m.vars })

/-- Goes on if a statement did not end the block. -/
def andThen (x y : Run V H (Flow V)) : Run V H (Flow V) := do
  match ← x with
  | .next => y
  | flow => return flow

/-- Passes of a loop, from the one with number `i` on, as long as they are entered. -/
def cycle (enter : Nat → Run V H Bool) (body : Run V H (Flow V)) :
    (passes : Nat) → (i : Nat) → Run V H (Flow V)
  | 0, _ => throw .exhausted
  | passes + 1, i => do
    if ← enter i then
      match ← body with
      | .broke => return .next
      | .returned v => return .returned v
      | _ => cycle enter body passes (i + 1)
    else return .next

end Run

/-! ## Routines -/

/-- The names that are variables of a function: its parameters, and what its body binds. -/
def Function.own (fn : Function) : List String := fn.params ++ Stmt.boundNames fn.body

/-- How expressions and statements are run: the operations, what a call does, and how many passes a
loop may have. A call is given the variables of the module. -/
structure Machine (V H : Type) where
  runtime : Runtime V H
  call : (String → Option V) → String → List V → Run V H V
  passes : Nat

namespace Machine

open Attempt Run

variable {V H : Type} (M : Machine V H)

def isTrue (v : V) : Run V H Bool := observe (M.runtime.truth v)

/-- The text of values on one line. -/
def line (vs : List V) : Run V H String :=
  observe fun h => " ".intercalate (vs.map (M.runtime.text · h))

/-- The conversion to text, of nothing or of one value. -/
def toText : List V → Run V H V
  | [] => return M.runtime.str ""
  | [v] => return M.runtime.str (← observe (M.runtime.text v))
  | _ => throw .raised

/-- A call from a routine. -/
def callFrom (r : Region V) (name : String) (args : List V) : Run V H V := do
  let m ← get
  M.call (r.globals m.vars) name args

mutual

def eval (r : Region V) : Expr → Run V H V
  | .int n => return M.runtime.int n
  | .float x => return M.runtime.float x
  | .str s => return M.runtime.str s
  | .bool b => return M.runtime.bool b
  | .var x => read r x
  | .binary op left right => do
    let v ← eval r left
    -- A logical operator has the value of the operand that decides it.
    if op.isLogical then
      if (← M.isTrue v) = decide (op = .or) then return v else eval r right
    else
      let w ← eval r right
      operate (M.runtime.binary op v w)
  | .unary op operand => do
    let v ← eval r operand
    if op = .not then return M.runtime.bool (!(← M.isTrue v)) else operate (M.runtime.signed op v)
  | .list elements => do
    let vs ← evalAll r elements
    operate fun h => some (M.runtime.list vs h)
  | .index target position => do
    let v ← eval r target
    let i ← eval r position
    operate fun h => (M.runtime.element v i h).map (·, h)
  | .call name args => do
    let vs ← evalAll r args
    if name = Expr.strName then M.toText vs else M.callFrom r name vs
  | .len operand => do
    let v ← eval r operand
    operate fun h => (M.runtime.length v h).map (·, h)
  | .range start stop step => do
    let a ← eval r start
    let b? ← evalOption r stop
    let step ← evalOption r step
    let stride := step.getD (M.runtime.int 1)
    match b? with
    | some b => operate (M.runtime.range a b stride)
    | none => operate (M.runtime.range (M.runtime.int 0) a stride)

def evalAll (r : Region V) : List Expr → Run V H (List V)
  | [] => return []
  | e :: es => do
    let v ← eval r e
    return v :: (← evalAll r es)

def evalOption (r : Region V) : Option Expr → Run V H (Option V)
  | none => return none
  | some e => return some (← eval r e)

end

/-- Enters a pass of a loop over a value: its variable takes the next element. -/
def takeNext (x : String) (v : V) (i : Nat) : Run V H Bool := do
  match ← operate fun h => (M.runtime.walked v i h).map (·, h) with
  | some item =>
    write x item
    return true
  | none => return false

/-- The end of a routine. Outside of functions it ends the run, and what it is given is not looked
at. -/
def ret (r : Region V) (value : Option Expr) : Run V H (Flow V) :=
  match r with
  | .module => return .returned M.runtime.none
  | .call _ _ => do
    let v? ← M.evalOption r value
    return .returned (v?.getD M.runtime.none)

mutual

def exec (r : Region V) : Stmt → Run V H (Flow V)
  | .assign x value => do
    write x (← M.eval r value)
    return .next
  | .assignAt target position value => do
    let v ← M.eval r value
    let list ← M.eval r target
    let i ← M.eval r position
    operate fun h => (M.runtime.storeAt list i v h).map ((), ·)
    return .next
  | .print args => do
    let vs ← M.evalAll r args
    print (← M.line vs)
    return .next
  | .ifElse cond body orelse => do
    let v ← M.eval r cond
    if ← M.isTrue v then block r body else otherwise r orelse
  | .whileLoop cond body =>
    cycle (fun _ => do M.isTrue (← M.eval r cond)) (block r body) M.passes 0
  | .forLoop x iterable body => do
    let v ← M.eval r iterable
    cycle (M.takeNext x v) (block r body) M.passes 0
  | .funcDef name params body => do
    define ⟨name, params, body⟩
    return .next
  | .ret value => M.ret r value
  | .eval e => do
    let _ ← M.eval r e
    return .next
  | .pass => return .next
  | .break_ => return .broke
  | .continue_ => return .continued

def block (r : Region V) : List Stmt → Run V H (Flow V)
  | [] => return .next
  | s :: rest => (exec r s).andThen (block r rest)

def otherwise (r : Region V) : Option (List Stmt) → Run V H (Flow V)
  | none => return .next
  | some body => block r body

end

/-- Runs the body of a function on its arguments. -/
def enter (outer : String → Option V) (fn : Function) (args : List V) : Run V H (Flow V) :=
  inScope (fun x => (fn.params.zip args).lookup x) (M.block (.call fn.own outer) fn.body)

/-- Calls a function by its name. -/
def apply (outer : String → Option V) (name : String) (args : List V) : Run V H V := do
  let m ← get
  match m.functions name with
  | none => throw (.unbound name)
  | some fn =>
    if fn.params.length = args.length then
      match ← M.enter outer fn args with
      | .returned v => return v
      | _ => return M.runtime.none
    else throw .raised

end Machine

/-- Calls that go at most so deep. -/
def callAt {V H : Type} (R : Runtime V H) : Nat → (String → Option V) → String → List V → Run V H V
  | 0, _, _, _ => throw .exhausted
  | n + 1, outer, name, args => Machine.apply ⟨R, callAt R n, n⟩ outer name args

/-- The machine that calls at most so deep, and passes a loop at most as often. -/
def machine {V H : Type} (R : Runtime V H) (n : Nat) : Machine V H := ⟨R, callAt R n, n⟩

/-! ## A small runtime -/

/-- Values of a small runtime: numbers, texts, and numbers that a loop counts over. -/
inductive Scalar where
  | int (n : Int)
  | str (s : String)
  | bool (b : Bool)
  | span (start : Int) (length : Nat)
  | none
  deriving DecidableEq

/-- A runtime that adds, multiplies and compares, and counts in steps of one. -/
def scalars : Runtime Scalar Unit where
  int := .int
  float _ := .none
  str := .str
  bool := .bool
  none := .none
  truth v _ :=
    match v with
    | .int n => n ≠ 0
    | .str s => s ≠ ""
    | .bool b => b
    | .span _ length => length ≠ 0
    | .none => false
  text v _ :=
    match v with
    | .int n => toString n
    | .str s => s
    | .bool b => if b then "True" else "False"
    | _ => "None"
  binary op v w _ :=
    match op, v, w with
    | .equal, v, w => some (.bool (v = w), ())
    | .add, .int a, .int b => some (.int (a + b), ())
    | .mul, .int a, .int b => some (.int (a * b), ())
    | _, _, _ => Option.none
  signed _ _ _ := Option.none
  list _ _ := (.none, ())
  range a b step _ :=
    match a, b, step with
    | .int a, .int b, .int 1 => some (.span a (b - a).toNat, ())
    | _, _, _ => Option.none
  length _ _ := Option.none
  element _ _ _ := Option.none
  storeAt _ _ _ _ := Option.none
  walked v i _ :=
    match v with
    | .span start length => some (if i < length then some (.int (start + i)) else Option.none)
    | _ => Option.none
  truth_bool _ _ := rfl
  equal_str a b _ := by simp

end Braces
