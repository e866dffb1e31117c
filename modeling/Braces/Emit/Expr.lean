import Braces.Cpp.Tree

/-!
# Emitting expressions

Every expression is checked against the table and turned into a target expression. Types are
checked before operands are emitted, so of two faults the outer one is reported. Grouping follows
the source tree: an operand is put in parentheses where its operator binds less tightly than the
one around it.
-/

namespace Braces

/-- A routine and the table that it is emitted with. -/
structure Frame where
  table : Table
  routine : String

namespace Frame

def params (f : Frame) : List Param := f.table.paramsOf f.routine

/-- The names of all variables of the routine. -/
def varNames (f : Frame) : List String :=
  ((f.table.localsOf? f.routine).map (·.keys)).getD [] ++ f.params.map (·.name)

def isVariable (f : Frame) (name : String) : Bool :=
  (f.table.local? f.routine name).isSome || f.params.any (·.name = name)

def varTy (f : Frame) (name : String) : Ty :=
  match f.table.local? f.routine name with
  | some v => v.ty
  | none => ((f.params.find? (·.name = name)).map (·.ty)).getD .unknown

def typeOf (f : Frame) (e : Expr) : Ty := f.table.typeOf f.varTy e

/-- Elements of lists are integers. -/
def checkElement (ty : Ty) : Except CheckError Unit :=
  if ty.isCount then .ok () else .error (.unsupportedElement ty)

def checkElements (f : Frame) (elements : List Expr) : Except CheckError Unit :=
  elements.forM fun e => checkElement (f.typeOf e)

def checkSlot (slot : Slot) (expected found : Ty) : Except CheckError Unit :=
  if expected.accepts found then .ok () else .error (.incompatible slot expected found)

def checkCount (slot : Slot) (found : Ty) : Except CheckError Unit :=
  if found.isCount then .ok () else .error (.incompatible slot .int found)

/-! ## Grouping -/

/-- Whether an operator node is emitted as a call, which needs no grouping. -/
def emitsCall (f : Frame) : Expr → Bool
  | .binary .floorDiv _ _ | .binary .mod _ _ => true
  | .binary .add l _ => f.typeOf l = .list
  | .binary .mul l r => (f.typeOf l).isSequence || (f.typeOf r).isSequence
  | _ => false

/-- Whether an operand of an operator of strength `parent` is grouped. Comparisons do not chain, so
one within another always is. -/
def needsGroup (f : Frame) (parent : Nat) (right : Bool) (e : Expr) : Bool :=
  match e with
  | .binary op _ _ =>
    !f.emitsCall e &&
      (op.precedence < parent || (op.precedence = parent && (right || op.isComparison)))
  | _ => false

/-- An operand of a binary operator. -/
def operand (f : Frame) (parent : Nat) (right : Bool) (e : Expr) (c : Cpp.Expr) : Cpp.Expr :=
  if f.needsGroup parent right e then .group c else c

/-- An operand of a sign or of `.size()`. -/
def atom (e : Expr) (c : Cpp.Expr) : Cpp.Expr :=
  match e with
  | .binary _ _ _ | .unary _ _ => .group c
  | _ => c

/-- A sequence that has members. -/
def sequence (e : Expr) (c : Cpp.Expr) : Cpp.Expr :=
  match e with
  | .str _ => .construct .str [c]
  | _ => atom e c

/-- A value as a condition. Sequences are true when they are not empty. -/
def truth (f : Frame) (e : Expr) (c : Cpp.Expr) : Cpp.Expr :=
  if (f.typeOf e).isSequence then .helper .truthy [c] else c

/-- An operand of a logical operator. -/
def condition (f : Frame) (parent : Nat) (right : Bool) (e : Expr) (c : Cpp.Expr) : Cpp.Expr :=
  if (f.typeOf e).isSequence then .helper .truthy [c] else f.operand parent right e c

/-- An operator of the target. A literal on the left becomes a value, so that the operator acts on
text and not on its address. -/
def infixed (f : Frame) (op : BinOp) (l r : Expr) (cl cr : Cpp.Expr) : Cpp.Expr :=
  let left := f.operand op.precedence false l cl
  let left := match l with
    | .str _ => .construct .str [left]
    | _ => left
  .binary op left (f.operand op.precedence true r cr)

/-- An element of a sequence. -/
def element (target : Expr) (ct ci : Cpp.Expr) : Cpp.Expr := .helper .index [sequence target ct, ci]

/-- An argument. A parameter that is stored through takes a list made in place as well. -/
def argument (p : Param) (arg : Expr) (c : Cpp.Expr) : Cpp.Expr :=
  match p.mode, arg with
  | .mutRef, .var _ => c
  | .mutRef, _ => .helper .lvalue [c]
  | _, _ => c

/-! ## Expressions -/

/-- How an operator node is emitted. -/
inductive Shape where
  | logical
  | plain
  | concat
  /-- The sequence is on the left. -/
  | repeatLeft
  /-- The sequence is on the right. -/
  | repeatRight
  | quotient
  | floatFloor
  | floor
  | floatMod
  | mod
  deriving DecidableEq, Repr

/-- The form of an operator on operands of these types, if there is one. -/
def shape? (op : BinOp) (left right : Ty) : Option Shape :=
  let numeric := left.isNumeric && right.isNumeric
  let float := left = .float || right = .float
  match op with
  | .and | .or => some .logical
  | .equal | .notEqual | .lessThan | .lessEqual | .greaterThan | .greaterEqual =>
    if numeric || left = right then some .plain else none
  | .add =>
    if left = .list && right = .list then some .concat
    else if (left = .str && right = .str) || numeric then some .plain
    else none
  | .mul =>
    if left.isSequence && right.isCount then some .repeatLeft
    else if right.isSequence && left.isCount then some .repeatRight
    else if numeric then some .plain
    else none
  | .sub => if numeric then some .plain else none
  | .div => if numeric then some .quotient else none
  | .floorDiv => if numeric then some (if float then .floatFloor else .floor) else none
  | .mod => if numeric then some (if float then .floatMod else .mod) else none

/-- Checks the target and the position of a subscript. -/
def checkSubscript (f : Frame) (target position : Expr) : Except CheckError Unit := do
  let ty := f.typeOf target
  unless ty.isIterable do throw (.notSubscriptable ty)
  checkCount .index (f.typeOf position)

/-- The parameters of a function that is called with `given` arguments. -/
def calleeParams (f : Frame) (name : String) (given : Nat) : Except CheckError (List Param) :=
  match f.table.signature? name with
  | none => .error (.undefined name)
  | some s =>
    if s.params.length = given then .ok s.params
    else .error (.wrongArgumentCount name s.params.length given)

mutual

def expr (f : Frame) : Expr → Except CheckError Cpp.Expr
  | .int n => return .int n
  | .float x => return .float x
  | .str s => return .str s
  | .bool b => return .bool b
  | .var name => if f.isVariable name then return .var (.source name) else throw (.undefined name)
  | .binary op l r =>
    let p := op.precedence
    match shape? op (f.typeOf l) (f.typeOf r) with
    | none => throw (.unsupportedOperands op (f.typeOf l) (f.typeOf r))
    | some .logical => do
      let cl ← expr f l
      let cr ← expr f r
      return .binary op (f.condition p false l cl) (f.condition p true r cr)
    | some .plain => do
      let cl ← expr f l
      let cr ← expr f r
      return f.infixed op l r cl cr
    | some .concat => do
      let cl ← expr f l
      let cr ← expr f r
      return .helper .concat [cl, cr]
    | some .repeatLeft => do
      let cl ← expr f l
      let cr ← expr f r
      return .helper .repeated [cl, cr]
    | some .repeatRight => do
      let cr ← expr f r
      let cl ← expr f l
      return .helper .repeated [cr, cl]
    | some .quotient => do
      let cl ← expr f l
      let cr ← expr f r
      return .binary .div (.cast .float cl) (f.operand p true r cr)
    | some .floatFloor => do
      let cl ← expr f l
      let cr ← expr f r
      return .helper .floor [.binary .div (f.operand p false l cl) (f.operand p true r cr)]
    | some .floor => do
      let cl ← expr f l
      let cr ← expr f r
      return .helper .floorDiv [cl, cr]
    | some .floatMod => do
      let cl ← expr f l
      let cr ← expr f r
      return .helper .fmod [cl, cr]
    | some .mod => do
      let cl ← expr f l
      let cr ← expr f r
      return .helper .mod [cl, cr]
  | .unary op e =>
    let ty := f.typeOf e
    if op = .not then do
      let c ← expr f e
      return .unary .not (if ty.isSequence then .helper .truthy [c] else atom e c)
    else if ty.isNumeric then do
      let c ← expr f e
      return .unary op (atom e c)
    else throw (.unsupportedOperand op ty)
  | .list elements => do
    f.checkElements elements
    return .vector (← exprs f elements)
  | .index target position => do
    f.checkSubscript target position
    let ct ← expr f target
    let ci ← expr f position
    let c := element target ct ci
    return if f.typeOf target = .str then .construct .str [.int 1, c] else c
  | .call name args =>
    if name = Expr.strName then
      match args with
      | [] => return .construct .str []
      | [arg] => return .helper .str [← expr f arg]
      | _ => throw (.wrongArgumentCount name 1 args.length)
    else do
      let ps ← f.calleeParams name args.length
      return .call name (← arguments f name ps args)
  | .len e => do
    let ty := f.typeOf e
    unless ty.isIterable do throw (.noLength ty)
    let c ← expr f e
    return .cast .int (.size (sequence e c))
  | .range start stop step => do
    let cstep ← option f step
    let cstart ← expr f start
    let cstop ← option f stop
    let stride := cstep.getD (.int 1)
    return match cstop with
      | some c => .helper .range [cstart, c, stride]
      | none => .helper .range [.int 0, cstart, stride]

def exprs (f : Frame) : List Expr → Except CheckError (List Cpp.Expr)
  | [] => return []
  | e :: es => do
    let c ← expr f e
    return c :: (← exprs f es)

def option (f : Frame) : Option Expr → Except CheckError (Option Cpp.Expr)
  | none => return none
  | some e => return some (← expr f e)

/-- Arguments, each checked against its parameter before it is emitted. -/
def arguments (f : Frame) (name : String) :
    List Param → List Expr → Except CheckError (List Cpp.Expr)
  | p :: ps, arg :: args => do
    checkSlot (.argument p.name name) p.ty (f.typeOf arg)
    let c ← expr f arg
    return argument p arg c :: (← arguments f name ps args)
  | _, _ => return []

end

end Frame

end Braces
