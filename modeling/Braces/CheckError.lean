import Braces.Expr
import Braces.Ty

/-!
# Rejected programs

Why a program that can be read is not emitted: its definitions clash, a name or an operation has no
meaning, or a value does not fit where it goes.
-/

namespace Braces

/-- A place that values of one type go to. -/
inductive Slot where
  | variable (name : String)
  | argument (param function : String)
  | result (function : String)
  | index
  | rangeArgument
  deriving DecidableEq, Repr

def Slot.describe : Slot → String
  | .variable name => s!"variable '{name}'"
  | .argument param function => s!"argument '{param}' of '{function}'"
  | .result function => s!"return value of '{function}'"
  | .index => "index"
  | .rangeArgument => "range() argument"

inductive Jump where
  | break_ | continue_
  deriving DecidableEq, Repr

def Jump.keyword : Jump → String
  | .break_ => "break"
  | .continue_ => "continue"

inductive CheckError where
  | duplicateFunction (name : String)
  | entryParameters
  | nestedFunction (name : String)
  | outsideLoop (jump : Jump)
  | missingSignature (name : String)
  | unsupportedOperands (op : BinOp) (left right : Ty)
  | unsupportedOperand (op : UnOp) (operand : Ty)
  | itemAssignment (ty : Ty)
  | notSubscriptable (ty : Ty)
  | notIterable (ty : Ty)
  | noLength (ty : Ty)
  | unsupportedElement (ty : Ty)
  | undefined (name : String)
  | wrongArgumentCount (name : String) (expected given : Nat)
  | incompatible (slot : Slot) (expected found : Ty)
  deriving DecidableEq, Repr

def CheckError.message : CheckError → String
  | .duplicateFunction name => s!"function '{name}' is defined more than once"
  | .entryParameters => "entry function 'main' must not take parameters"
  | .nestedFunction name => s!"function '{name}' must be defined at the top level"
  | .outsideLoop jump => s!"'{jump.keyword}' outside loop"
  | .missingSignature name => s!"no signature recorded for function '{name}'"
  | .unsupportedOperands op left right =>
    s!"unsupported operand type(s) for {op.pythonSymbol}: " ++
      s!"'{left.pythonName}' and '{right.pythonName}'"
  | .unsupportedOperand op operand =>
    s!"bad operand type for unary {op.pythonSymbol}: '{operand.pythonName}'"
  | .itemAssignment ty => s!"'{ty.pythonName}' object does not support item assignment"
  | .notSubscriptable ty => s!"'{ty.pythonName}' object is not subscriptable"
  | .notIterable ty => s!"'{ty.pythonName}' object is not iterable"
  | .noLength ty => s!"object of type '{ty.pythonName}' has no len()"
  | .unsupportedElement ty => s!"lists of '{ty.pythonName}' are not supported"
  | .undefined name => s!"name '{name}' is not defined"
  | .wrongArgumentCount name expected given =>
    s!"{name}() takes {expected} argument(s) but {given} were given"
  | .incompatible slot expected found =>
    s!"{slot.describe} has type '{expected.pythonName}' but is given '{found.pythonName}'"

end Braces
