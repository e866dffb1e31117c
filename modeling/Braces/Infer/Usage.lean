import Braces.Stmt
import Braces.Table

/-!
# How parameters are used

A parameter is a sequence if the body indexes, measures or iterates it, or passes it on to a
parameter that is one; its elements are stored to by the body or by a function it is passed on to.
Marks are only ever set, so marking all parameters again and again comes to an end.
-/

namespace Braces

/-- What a body does with a variable. -/
structure Usage where
  asSequence : Bool := false
  mutated : Bool := false
  reassigned : Bool := false
  deriving DecidableEq, Repr

namespace Usage

def none : Usage := {}

def or (a b : Usage) : Usage :=
  ⟨a.asSequence || b.asSequence, a.mutated || b.mutated, a.reassigned || b.reassigned⟩

def sequenceIf (b : Bool) : Usage := { asSequence := b }

def storedIf (b : Bool) : Usage := { asSequence := b, mutated := b }

def reassignedIf (b : Bool) : Usage := { reassigned := b }

end Usage

namespace Expr

/-- What passing an argument to a parameter does with a variable. -/
def forwarded (name : String) (p : Param) (arg : Expr) : Usage :=
  if arg.isVar name && p.ty = .list then { asSequence := true, mutated := p.mutated } else .none

mutual

def usage (t : Table) (name : String) : Expr → Usage
  | .index target position =>
    (Usage.sequenceIf (target.isVar name)).or
      ((target.usage t name).or (position.usage t name))
  | .len e => (Usage.sequenceIf (e.isVar name)).or (e.usage t name)
  | .call callee args => argsUsage t name (t.paramsOf callee) args
  | .binary _ l r => (l.usage t name).or (r.usage t name)
  | .unary _ e => e.usage t name
  | .list elements => listUsage t name elements
  | .range start stop step =>
    (start.usage t name).or ((optionUsage t name stop).or (optionUsage t name step))
  | .int _ | .float _ | .str _ | .bool _ | .var _ => .none

def argsUsage (t : Table) (name : String) : List Param → List Expr → Usage
  | _, [] => .none
  | [], arg :: args => (arg.usage t name).or (argsUsage t name [] args)
  | p :: ps, arg :: args =>
    (forwarded name p arg).or ((arg.usage t name).or (argsUsage t name ps args))

def listUsage (t : Table) (name : String) : List Expr → Usage
  | [] => .none
  | e :: es => (e.usage t name).or (listUsage t name es)

def optionUsage (t : Table) (name : String) : Option Expr → Usage
  | Option.none => .none
  | some e => e.usage t name

end

end Expr

namespace Stmt

mutual

def usage (t : Table) (name : String) : Stmt → Usage
  | .assign target value => (Usage.reassignedIf (target = name)).or (value.usage t name)
  | .assignAt target position value =>
    (Usage.storedIf (target.isVar name)).or
      ((target.usage t name).or ((position.usage t name).or (value.usage t name)))
  | .print args => Expr.listUsage t name args
  | .ifElse cond body orelse =>
    (cond.usage t name).or ((blockUsage t name body).or (elseUsage t name orelse))
  | .whileLoop cond body => (cond.usage t name).or (blockUsage t name body)
  | .forLoop loopVar iterable body =>
    (Usage.reassignedIf (loopVar = name)).or
      ((Usage.sequenceIf (iterable.isVar name)).or
        ((iterable.usage t name).or (blockUsage t name body)))
  | .ret value => Expr.optionUsage t name value
  | .eval e => e.usage t name
  | .funcDef _ _ _ | .pass | .break_ | .continue_ => .none

def blockUsage (t : Table) (name : String) : List Stmt → Usage
  | [] => .none
  | s :: rest => (s.usage t name).or (blockUsage t name rest)

def elseUsage (t : Table) (name : String) : Option (List Stmt) → Usage
  | Option.none => .none
  | some body => blockUsage t name body

end

end Stmt

namespace Table

/-- Sets the marks that a usage calls for. -/
def markParam (t : Table) (function : String) (index : Nat) (u : Usage) : Table :=
  t.modifyParam function index fun p =>
    { p with
      ty := if u.asSequence then .list else p.ty
      mutated := p.mutated || u.mutated
      reassigned := p.reassigned || u.reassigned }

def markFunction (t : Table) (f : Function) : Table :=
  f.params.zipIdx.foldl
    (fun t (name, index) => t.markParam f.name index (Stmt.blockUsage t name f.body)) t

/-- Sets the marks of all parameters, each seeing the marks set before it. -/
def markAll (fs : List Function) (t : Table) : Table := fs.foldl markFunction t

/-- How many marks are not set yet. -/
def unmarked (t : Table) : Nat :=
  (t.functions.flatMap (·.params)).countP (·.ty ≠ .list) +
    (t.functions.flatMap (·.params)).countP (!·.mutated)

/-- Sets marks until no more are set. -/
def markUsage (fs : List Function) (t : Table) : Table :=
  let marked := t.markAll fs
  if marked.unmarked < t.unmarked then markUsage fs marked else marked
termination_by t.unmarked

end Table

end Braces
