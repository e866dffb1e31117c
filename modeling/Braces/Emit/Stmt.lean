import Braces.Emit.Expr
import Braces.Fresh
import Braces.Stmt

/-!
# Emitting statements

Statements become target statements in order. The first store to a variable declares it, unless it
is declared at the top of its routine. A loop over a range evaluates its bounds once: where the
target's own loop would not, hidden variables hold them.
-/

namespace Braces

namespace Stmt

mutual

/-- The names that a statement may give a value, at any depth. -/
def assigned : Stmt → List String
  | .assign name _ => [name]
  | .forLoop name _ body => name :: assignedIn body
  | .ifElse _ body orelse => assignedIn body ++ assignedInElse orelse
  | .whileLoop _ body => assignedIn body
  | _ => []

def assignedIn : List Stmt → List String
  | [] => []
  | s :: rest => s.assigned ++ assignedIn rest

def assignedInElse : Option (List Stmt) → List String
  | none => []
  | some body => assignedIn body

end

end Stmt

/-- Whether an expression keeps its value while only the given names are stored to. -/
def Expr.isStable (assigned : List String) : Expr → Bool
  | .int _ | .float _ | .bool _ => true
  | .var name => name ∉ assigned
  | .unary _ e | .len e => e.isStable assigned
  | .binary _ l r => l.isStable assigned && r.isStable assigned
  | _ => false

/-- Whether an expression is a literal, which names its type. -/
def Expr.isLiteral : Expr → Bool
  | .int _ | .float _ | .str _ | .bool _ | .list _ => true
  | _ => false

/-- How far a routine has been emitted. -/
structure Progress where
  /-- Variables declared so far. -/
  declared : List String
  /-- The number from which hidden variables are taken next. -/
  nextHidden : Nat
  deriving DecidableEq, Repr

namespace Progress

def declare (st : Progress) (name : String) : Progress :=
  { st with declared := name :: st.declared }

def forget (st : Progress) (name : String) : Progress :=
  { st with declared := st.declared.filter (· ≠ name) }

end Progress

/-- A loop without its body. -/
inductive LoopHead where
  | count (counters : List (Cpp.Name × Cpp.Expr)) (cond : Cpp.Expr) (advance : Cpp.Advance)
  | each (ty : Cpp.DeclType) (name : Cpp.Name) (sequence : Cpp.Expr)

def LoopHead.loop (body : List Cpp.Stmt) : LoopHead → Cpp.Stmt
  | .count counters cond advance => .forCount counters cond advance body
  | .each ty name sequence => .forEach ty name sequence body

namespace Frame

open Cpp (Name hiddenName)

/-! ## Assignments and output -/

/-- The type that the first store to a variable names. A literal names its own type, or the
variable's; other values leave it to the target, unless later stores widen the variable. -/
def declType (f : Frame) (name : String) (value : Expr) : Cpp.DeclType :=
  let own := f.typeOf value
  let inferred := f.varTy name
  if value.isLiteral && !inferred.isKnown then .ty own
  else if value.isLiteral || (inferred.isKnown && inferred ≠ own) then .ty inferred
  else .auto

/-- The value in a declaration. A list of a declared type is written without its type. -/
def initial (f : Frame) (ty : Cpp.DeclType) (value : Expr) : Except CheckError Cpp.Expr :=
  match value with
  | .list elements =>
    if ty = .ty .list then do
      f.checkElements elements
      return .braces (← f.exprs elements)
    else f.expr value
  | _ => f.expr value

def assign (f : Frame) (name : String) (value : Expr) (st : Progress) :
    Except CheckError (List Cpp.Stmt × Progress) := do
  checkSlot (.variable name) (f.varTy name) (f.typeOf value)
  if name ∈ st.declared then
    let c ← f.expr value
    return ([.store (.var (.source name)) c], st)
  else
    let ty := f.declType name value
    let c ← f.initial ty value
    return ([.declare ty (.source name) c], st.declare name)

def assignAt (f : Frame) (target position value : Expr) : Except CheckError Cpp.Stmt := do
  let ty := f.typeOf target
  unless ty = .list || ty = .unknown do throw (.itemAssignment ty)
  checkElement (f.typeOf value)
  f.checkSubscript target position
  let ct ← f.expr target
  let ci ← f.expr position
  let c ← f.expr value
  return .store (element target ct ci) c

/-- An item of output. What is not seen to be text is converted. -/
def outputItem (arg : Expr) (c : Cpp.Expr) : Cpp.Expr :=
  if arg.isTextual then c else .helper .str [c]

def print (f : Frame) (args : List Expr) : Except CheckError Cpp.Stmt := do
  let cs ← f.exprs args
  return .output (List.zipWith outputItem args cs)

/-! ## Loops -/

/-- The sign of a step that is a literal other than zero. A step that is left out is one. -/
def stepSign? (step : Option Expr) : Option Int :=
  (match step with
    | none => some 1
    | some e => e.literalSign?).filter (· ≠ 0)

/-- How a loop variable gets its value at the start of the body. -/
def loopStore (f : Frame) (fresh : Bool) (name : String) (value : Cpp.Expr) : Cpp.Stmt :=
  if fresh then .declare (.ty (f.varTy name)) (.source name) value
  else .store (.var (.source name)) value

/-- The condition of a counting loop: towards the bound, upwards or downwards. -/
def towards (up : Bool) (counter : Name) (bound : Cpp.Expr) : Cpp.Expr :=
  .binary (if up then .lessThan else .greaterThan) (.var counter) bound

/-- The condition and the advance of a counting loop. Where the sign of the step is not known, it is
looked at on every pass. -/
def counting (sign? : Option Int) (counter : Name) (bound : Cpp.Expr) (stride? : Option Cpp.Expr) :
    Cpp.Expr × Cpp.Advance :=
  match stride?, sign? with
  | none, _ => (towards true counter bound, .increment counter)
  | some stride, some sign => (towards (0 < sign) counter bound, .add counter stride)
  | some stride, none =>
    (.group (.choose (.binary .greaterThan stride (.int 0)) (towards true counter bound)
      (towards false counter bound)), .add counter stride)

/-- The head of a loop over a range, and what its body starts with. The loop counts with its own
variable if that is fresh, the body does not store to it and the bound does not change. -/
def rangeHead (f : Frame) (st : Progress) (name : String) (start stop : Expr) (step : Option Expr)
    (assigned : List String) : Except CheckError (LoopHead × List Cpp.Stmt × Progress) := do
  checkCount .rangeArgument (f.typeOf start)
  checkCount .rangeArgument (f.typeOf stop)
  step.forM fun e => checkCount .rangeArgument (f.typeOf e)
  let fresh := name ∉ st.declared
  let sign? := stepSign? step
  let cstart ← f.expr start
  let cstop ← f.expr stop
  let cstep ← f.option step
  if fresh && sign?.isSome && name ∉ assigned && stop.isStable assigned then
    let counter := Name.source name
    let (cond, advance) := counting sign? counter cstop cstep
    return (.count [(counter, cstart)] cond advance, [], st)
  else
    let n := firstFree
      (fun k => [hiddenName .counter k, hiddenName .bound k, hiddenName .stride k]) f.varNames
      st.nextHidden
    let counter := Name.hidden .counter n
    let keepsBound := stop.literalSign?.isSome
    let bound := if keepsBound then cstop else .var (.hidden .bound n)
    let bounds := if keepsBound then [] else [(Name.hidden .bound n, cstop)]
    let (stride?, strides) :=
      match cstep, sign? with
      | some c, none =>
        (some (.var (.hidden .stride n)), [(Name.hidden .stride n, .helper .step [c])])
      | c?, _ => (c?, [])
    let (cond, advance) := counting sign? counter bound stride?
    return (.count ((counter, cstart) :: bounds ++ strides) cond advance,
      [f.loopStore fresh name (.var counter)], { st with nextHidden := n + 1 })

/-- The head of a loop over a sequence, and what its body starts with. A variable that the loop
gives another value is copied first. -/
def collectionHead (f : Frame) (st : Progress) (name : String) (iterable : Expr)
    (assigned : List String) : Except CheckError (LoopHead × List Cpp.Stmt × Progress) := do
  let ty := f.typeOf iterable
  unless ty.isIterable do throw (.notIterable ty)
  let isText := ty = .str
  let fresh := name ∉ st.declared
  let c ← f.expr iterable
  let walked := sequence iterable c
  let walked :=
    match iterable with
    | .var v =>
      if v ∈ assigned then .construct (if isText then .str else .list) [walked] else walked
    | _ => walked
  if fresh && !isText then
    return (.each (.ty (f.varTy name)) (.source name) walked, [], st)
  else
    let n := firstFree (fun k => [hiddenName .item k]) f.varNames st.nextHidden
    let item : Cpp.Expr := .var (.hidden .item n)
    let value := if isText then .construct .str [.int 1, item] else item
    return (.each .auto (.hidden .item n) walked, [f.loopStore fresh name value],
      { st with nextHidden := n + 1 })

/-- The head of a loop. A range without an end starts at zero and ends at its start. -/
def loopHead (f : Frame) (st : Progress) (name : String) (iterable : Expr)
    (assigned : List String) : Except CheckError (LoopHead × List Cpp.Stmt × Progress) :=
  match iterable with
  | .range start (some stop) step => f.rangeHead st name start stop step assigned
  | .range stop none step => f.rangeHead st name (.int 0) stop step assigned
  | _ => f.collectionHead st name iterable assigned

/-! ## Jumps and results -/

/-- The entry routine always returns zero. -/
def ret (f : Frame) (value : Option Expr) : Except CheckError Cpp.Stmt :=
  if f.routine = entryName then return .ret (some (.int 0))
  else
    let result := ((f.table.signature? f.routine).map (·.result)).getD .void
    match value with
    | some e => do
      checkSlot (.result f.routine) result (f.typeOf e)
      return .ret (some (← f.expr e))
    | none => return if result = .void then .ret none else .retDefault

def jump (inLoop : Bool) (j : Jump) : Except CheckError Cpp.Stmt :=
  if inLoop then return .jump j else throw (.outsideLoop j)

/-! ## Statements -/

mutual

def stmt (f : Frame) (inLoop : Bool) (st : Progress) :
    Stmt → Except CheckError (List Cpp.Stmt × Progress)
  | .assign name value => f.assign name value st
  | .assignAt target position value => do return ([← f.assignAt target position value], st)
  | .print args => do return ([← f.print args], st)
  | .ifElse cond body orelse => do
    let c ← f.expr cond
    let (cbody, st) ← block f inLoop st body
    let (celse, st) ← otherwise f inLoop st orelse
    return ([.ifElse (f.truth cond c) cbody celse], st)
  | .whileLoop cond body => do
    let c ← f.expr cond
    let (cbody, st) ← block f true st body
    return ([.whileLoop (f.truth cond c) cbody], st)
  | .forLoop name iterable body => do
    let (head, first, st) ← f.loopHead st name iterable (Stmt.assignedIn body)
    let fresh := name ∉ st.declared
    let (cbody, st) ← block f true (if fresh then st.declare name else st) body
    return ([head.loop (first ++ cbody)], if fresh then st.forget name else st)
  | .funcDef name _ _ => throw (.nestedFunction name)
  | .ret value => do return ([← f.ret value], st)
  | .eval e => do return ([.eval (← f.expr e)], st)
  | .pass => return ([], st)
  | .break_ => do return ([← jump inLoop .break_], st)
  | .continue_ => do return ([← jump inLoop .continue_], st)

def block (f : Frame) (inLoop : Bool) (st : Progress) :
    List Stmt → Except CheckError (List Cpp.Stmt × Progress)
  | [] => return ([], st)
  | s :: rest => do
    let (here, st) ← stmt f inLoop st s
    let (later, st) ← block f inLoop st rest
    return (here ++ later, st)

/-- What follows the block of a condition. A single conditional goes on in the same chain. -/
def otherwise (f : Frame) (inLoop : Bool) (st : Progress) :
    Option (List Stmt) → Except CheckError (Cpp.Else × Progress)
  | none => return (.nothing, st)
  | some [.ifElse cond body orelse] => do
    let c ← f.expr cond
    let (cbody, st) ← block f inLoop st body
    let (celse, st) ← otherwise f inLoop st orelse
    return (.elseIf (f.truth cond c) cbody celse, st)
  | some body => do
    let (cbody, st) ← block f inLoop st body
    return (.block cbody, st)

end

end Frame

end Braces
