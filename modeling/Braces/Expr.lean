import Braces.Double

/-!
# Expressions

Expressions of the source language and their operators. `combine` is how an operator node is built:
a `+` with text on one side writes both sides as text.
-/

namespace Braces

inductive BinOp where
  | or | and
  | equal | notEqual | lessThan | lessEqual | greaterThan | greaterEqual
  | add | sub | mul | div | floorDiv | mod
  deriving DecidableEq, Repr

namespace BinOp

/-- The operator sign of the emitted program. -/
def cppSymbol : BinOp → String
  | or => "||"
  | and => "&&"
  | equal => "=="
  | notEqual => "!="
  | lessThan => "<"
  | lessEqual => "<="
  | greaterThan => ">"
  | greaterEqual => ">="
  | add => "+"
  | sub => "-"
  | mul => "*"
  | div | floorDiv => "/"
  | mod => "%"

/-- The operator sign of the source language. -/
def pythonSymbol : BinOp → String
  | or => "or"
  | and => "and"
  | floorDiv => "//"
  | op => op.cppSymbol

/-- Binding strength, the same in both languages. A higher one binds tighter. -/
def precedence : BinOp → Nat
  | or => 1
  | and => 2
  | equal | notEqual | lessThan | lessEqual | greaterThan | greaterEqual => 3
  | add | sub => 4
  | mul | div | floorDiv | mod => 5

def isComparison : BinOp → Bool
  | equal | notEqual | lessThan | lessEqual | greaterThan | greaterEqual => true
  | _ => false

def isLogical : BinOp → Bool
  | or | and => true
  | _ => false

end BinOp

inductive UnOp where
  | plus | neg | not
  deriving DecidableEq, Repr

namespace UnOp

def cppSymbol : UnOp → String
  | plus => "+"
  | neg => "-"
  | not => "!"

def pythonSymbol : UnOp → String
  | not => "not"
  | op => op.cppSymbol

end UnOp

inductive Expr where
  | int (n : Int)
  | float (x : Double)
  | str (s : String)
  | bool (b : Bool)
  | var (name : String)
  | binary (op : BinOp) (left right : Expr)
  | unary (op : UnOp) (operand : Expr)
  | list (elements : List Expr)
  | index (target position : Expr)
  | call (name : String) (args : List Expr)
  | len (operand : Expr)
  /-- `range(start, stop, step)`. Read from text it always has a `stop`; without one, `start` is
  where the range ends. -/
  | range (start : Expr) (stop step : Option Expr)
  deriving Repr, Inhabited

namespace Expr

/-- The conversion to text. -/
def strName : String := "str"

/-- Whether an expression is seen to be text without any types. -/
def isTextual : Expr → Bool
  | .str _ => true
  | .call name _ => name = strName
  | .binary .add l r => l.isTextual || r.isTextual
  | _ => false

/-- Converts to text, unless it is seen to be text. -/
def toText (e : Expr) : Expr := if e.isTextual then e else .call strName [e]

/-- An operator node. A `+` with text on either side converts both sides to text. -/
def combine (op : BinOp) (l r : Expr) : Expr :=
  if op = .add ∧ (l.isTextual || r.isTextual) then .binary op l.toText r.toText
  else .binary op l r

/-- The sign of an integer literal, seen through unary signs. -/
def literalSign? : Expr → Option Int
  | .int n => some n.sign
  | .unary .plus e => e.literalSign?
  | .unary .neg e => e.literalSign?.map (- ·)
  | _ => none

end Expr

end Braces
