/-!
# Types

The static types of the emitted program, as far as inference tells them apart. `unknown` is a type
that nothing has fixed yet. `join` is how a slot takes in one more value.
-/

namespace Braces

inductive Ty where
  | void | bool | int | float | str | list | unknown
  deriving DecidableEq, Repr, Inhabited

namespace Ty

def cppName : Ty → String
  | void => "void"
  | bool => "bool"
  | int => "long long"
  | float => "double"
  | str => "string"
  | list => "vector<long long>"
  | unknown => "auto"

/-- The spelling of a declaration that needs a definite type. -/
def declaredName : Ty → String
  | unknown | void => int.cppName
  | t => t.cppName

/-- The name that messages use. -/
def pythonName : Ty → String
  | void => "None"
  | bool => "bool"
  | int | unknown => "int"
  | float => "float"
  | str => "str"
  | list => "list"

def isKnown (t : Ty) : Bool := t ≠ unknown

def isNumeric : Ty → Bool
  | bool | int | float | unknown => true
  | _ => false

/-- Values that are true when they are not empty. -/
def isSequence : Ty → Bool
  | str | list => true
  | _ => false

/-- Types that count: they index, bound a range, repeat a sequence and are elements of lists. -/
def isCount : Ty → Bool
  | int | bool | unknown => true
  | _ => false

/-- Types that can be indexed, measured and iterated. -/
def isIterable : Ty → Bool
  | list | str | unknown => true
  | _ => false

/-- The type of a slot that holds values of both types. Numbers widen; otherwise the type that was
there first stays. -/
def join : Ty → Ty → Ty
  | unknown, t => t
  | t, unknown => t
  | float, bool | float, int | bool, float | int, float => float
  | int, bool | bool, int => int
  | t, _ => t

/-- The type of a sum, difference, product, floor quotient or remainder. -/
def arithmetic : Ty → Ty → Ty
  | str, _ | _, str => str
  | list, _ | _, list => list
  | float, _ | _, float => float
  | unknown, _ | _, unknown => unknown
  | _, _ => int

/-- Whether a value of type `found` may go where `expected` is held. -/
def accepts (expected found : Ty) : Bool :=
  expected = found || !expected.isKnown || !found.isKnown ||
    (expected.isNumeric && found.isNumeric)

end Ty

end Braces
