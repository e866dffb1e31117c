import Braces.Expr
import Braces.Table

/-!
# The target tree

Emitted programs before they are text: expressions with their grouping made explicit, statements
with their blocks, routines and the whole unit. A name is either one of the source or one that the
emitter made, and the two never mix.
-/

namespace Braces.Cpp

/-- What an emitted variable is for. -/
inductive Stem where
  | counter | bound | stride | item
  deriving DecidableEq, Repr

def Stem.text : Stem → String
  | .counter => "i"
  | .bound => "end"
  | .stride => "step"
  | .item => "item"

inductive Name where
  | source (name : String)
  | hidden (stem : Stem) (n : Nat)
  deriving DecidableEq, Repr

/-- The spelling of an emitted variable. -/
def hiddenName (stem : Stem) (n : Nat) : String := "py2cpp_" ++ stem.text ++ "_" ++ toString n

def Name.text : Name → String
  | .source name => spell name
  | .hidden stem n => hiddenName stem n

/-- Functions of the prelude and the library that emitted code calls. -/
inductive Helper where
  | str | floorDiv | mod | fmod | truthy | concat | repeated | index | step | lvalue | range | floor
  deriving DecidableEq, Repr

def Helper.text : Helper → String
  | .str => "py_str"
  | .floorDiv => "py_floordiv"
  | .mod => "py_mod"
  | .fmod => "py_fmod"
  | .truthy => "py_truthy"
  | .concat => "py_concat"
  | .repeated => "py_repeat"
  | .index => "py_index"
  | .step => "py_step"
  | .lvalue => "py_lvalue"
  | .range => "py_range"
  | .floor => "floor"

inductive Expr where
  | int (n : Int)
  | float (x : Double)
  /-- A string literal; escapes stand in it as they stood in the source. -/
  | str (s : String)
  | bool (b : Bool)
  | var (name : Name)
  | binary (op : BinOp) (left right : Expr)
  | unary (op : UnOp) (operand : Expr)
  | group (e : Expr)
  | helper (h : Helper) (args : List Expr)
  | call (function : String) (args : List Expr)
  /-- A value of a type made from others. -/
  | construct (ty : Ty) (args : List Expr)
  | cast (ty : Ty) (e : Expr)
  | size (e : Expr)
  | vector (elements : List Expr)
  /-- Elements of a list whose type is given by its declaration. -/
  | braces (elements : List Expr)
  | choose (cond yes no : Expr)
  deriving Repr, Inhabited

/-- The type that a declaration names. -/
inductive DeclType where
  | auto
  | ty (t : Ty)
  deriving DecidableEq, Repr

/-- How a counting loop goes on. -/
inductive Advance where
  | increment (name : Name)
  | add (name : Name) (stride : Expr)
  deriving Repr

mutual

inductive Stmt where
  | declare (ty : DeclType) (name : Name) (value : Expr)
  /-- A declaration without a value of its own. -/
  | reserve (ty : Ty) (name : Name)
  | store (target value : Expr)
  | output (items : List Expr)
  | eval (e : Expr)
  | ifElse (cond : Expr) (body : List Stmt) (orelse : Else)
  | whileLoop (cond : Expr) (body : List Stmt)
  /-- A loop over counters, all of them integers. -/
  | forCount (counters : List (Name × Expr)) (cond : Expr) (advance : Advance) (body : List Stmt)
  | forEach (ty : DeclType) (name : Name) (sequence : Expr) (body : List Stmt)
  | ret (value : Option Expr)
  /-- Returns the default value of the result type. -/
  | retDefault
  | jump (j : Jump)

/-- What follows the block of a condition. -/
inductive Else where
  | nothing
  | elseIf (cond : Expr) (body : List Stmt) (orelse : Else)
  | block (body : List Stmt)

end

/-- A function with its body. -/
structure Routine where
  signature : Signature
  body : List Stmt

/-- A whole program: prototypes, functions and the body of the entry routine. -/
structure Unit where
  prototypes : List Signature
  routines : List Routine
  entry : List Stmt

end Braces.Cpp
