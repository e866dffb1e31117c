import Mathlib.Data.List.Forall2
import Braces.Proofs.Emission.Expr
import Braces.Proofs.Grouping.Literals
import Braces.Proofs.Grouping.Printing

/-!
# The tree that an expression means

`Frame.intended` translates an expression node by node: an operator becomes one of the target or the
call that stands for it, applied to the translations of its own operands. It knows nothing of levels
and parentheses. What is emitted for an expression is read, by the grammar, as this tree.
-/

namespace Braces

open Cpp (Tree Lexeme Derives Listed level?)

/-- The call of a function by its name. -/
def calling (name : String) (args : List Tree) : Tree := .call (.atom (.word name)) args

namespace Frame

/-- A literal becomes a value where an operator or a member acts on it. -/
def valued (e : Expr) (t : Tree) : Tree :=
  match e with
  | .str _ => calling "string" [t]
  | _ => t

/-- The tree of a condition. -/
def truthOf (f : Frame) (e : Expr) (t : Tree) : Tree :=
  if (f.typeOf e).isSequence then calling "py_truthy" [t] else t

/-- The tree of an operator node, from those of its operands. -/
def operated (f : Frame) (op : BinOp) (l r : Expr) (a b : Tree) : Tree :=
  let float := f.typeOf l = .float || f.typeOf r = .float
  match op with
  | .or | .and => .binary op.cppSymbol (f.truthOf l a) (f.truthOf r b)
  | .equal | .notEqual | .lessThan | .lessEqual | .greaterThan | .greaterEqual | .sub =>
    .binary op.cppSymbol (valued l a) b
  | .add => if f.typeOf l = .list then calling "py_concat" [a, b] else .binary "+" (valued l a) b
  | .mul =>
    if (f.typeOf l).isSequence then calling "py_repeat" [a, b]
    else if (f.typeOf r).isSequence then calling "py_repeat" [b, a]
    else .binary "*" (valued l a) b
  | .div => .binary "/" (.cast .float a) b
  | .floorDiv =>
    if float then calling "floor" [.binary "/" a b] else calling "py_floordiv" [a, b]
  | .mod => if float then calling "py_fmod" [a, b] else calling "py_mod" [a, b]

/-- The tree of an argument. A list made in place becomes something that can be stored through. -/
def passed (p : Param) (arg : Expr) (t : Tree) : Tree :=
  match p.mode, arg with
  | .mutRef, .var _ => t
  | .mutRef, _ => calling "py_lvalue" [t]
  | _, _ => t

def one : Tree := .atom (.number "1")

mutual

def intended (f : Frame) : Expr → Tree
  | .int n => .atom (.number (Cpp.intLiteral n))
  | .float x => .atom (.number x.text)
  | .str s => .atom (.text (String.ofList (Cpp.escapeText s.toList)))
  | .bool b => .atom (.word (if b then "true" else "false"))
  | .var name => .atom (.word (Cpp.spell name))
  | .binary op l r => f.operated op l r (intended f l) (intended f r)
  | .unary .not e => .prefixed "!" (f.truthOf e (intended f e))
  | .unary op e => .prefixed op.cppSymbol (intended f e)
  | .list elements => .vector (intendedAll f elements)
  | .index target position =>
    let t := calling "py_index" [valued target (intended f target), intended f position]
    if f.typeOf target = .str then calling "string" [one, t] else t
  | .call name args =>
    if name = Expr.strName then
      if args.isEmpty then calling "string" [] else calling "py_str" (intendedAll f args)
    else calling (Cpp.spell name) (intendedArgs f (f.table.paramsOf name) args)
  | .len e => .cast .int (.call (.member (valued e (intended f e)) "size") [])
  | .range start stop step =>
    let stride := intendedOr f one step
    match stop with
    | some stop => calling "py_range" [intended f start, intended f stop, stride]
    | none => calling "py_range" [.atom (.number "0"), intended f start, stride]

def intendedAll (f : Frame) : List Expr → List Tree
  | [] => []
  | e :: es => intended f e :: intendedAll f es

def intendedOr (f : Frame) (absent : Tree) : Option Expr → Tree
  | none => absent
  | some e => intended f e

def intendedArgs (f : Frame) : List Param → List Expr → List Tree
  | p :: ps, arg :: args => passed p arg (intended f arg) :: intendedArgs f ps args
  | _, _ => []

end

end Frame

end Braces
