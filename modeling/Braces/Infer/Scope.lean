import Braces.Table

/-!
# The scope of a routine

What inference knows of a routine's variables while it walks the body: their types so far, the
block that first stores to each, and which of them must be declared at the top because they are
used outside that block or read before it.
-/

namespace Braces

/-- Where a variable was first stored to. -/
structure Binding where
  /-- The enclosing blocks, the innermost first. -/
  path : List Nat
  /-- It is the variable of a loop. -/
  byLoop : Bool
  deriving DecidableEq, Repr

structure Scope where
  types : Dict Ty
  params : List String
  bindings : Dict Binding
  hoisted : List String
  /-- Names read before any store to them. -/
  unboundReads : List String
  /-- The blocks around the current statement, the innermost first. -/
  path : List Nat
  /-- How many blocks have been entered. -/
  blocks : Nat
  deriving DecidableEq, Repr

namespace Scope

def ofParams (params : List Param) : Scope where
  types := .ofList (params.map fun p => (p.name, p.ty))
  params := params.map (·.name)
  bindings := .empty
  hoisted := []
  unboundReads := []
  path := []
  blocks := 0

def lookup (s : Scope) (name : String) : Ty := (s.types.get? name).getD .unknown

def enter (s : Scope) : Scope := { s with blocks := s.blocks + 1, path := (s.blocks + 1) :: s.path }

def exit (s : Scope) : Scope := { s with path := s.path.tail }

/-- Whether the current statement lies in the block of a binding. -/
def sees (s : Scope) (b : Binding) : Bool := b.path.isSuffixOf s.path

def hoist (s : Scope) (name : String) : Scope := { s with hoisted := name :: s.hoisted }

/-- A use of a variable. Outside the block that first stores to it, it has to be hoisted. -/
def touch (s : Scope) (name : String) : Scope :=
  match s.bindings.get? name with
  | some b => if s.sees b then s else s.hoist name
  | none => if name ∈ s.params then s else { s with unboundReads := name :: s.unboundReads }

def rebind (s : Scope) (name : String) (byLoop : Bool) : Scope :=
  { s with bindings := s.bindings.insert name ⟨s.path, byLoop⟩ }

/-- Finds or makes the binding of a store. Loops side by side each bind their own variable. -/
def bindName (s : Scope) (name : String) (byLoop : Bool) : Scope :=
  if name ∈ s.params then s
  else
    match s.bindings.get? name with
    | none => (if name ∈ s.unboundReads then s.hoist name else s).rebind name byLoop
    | some b =>
      if byLoop && b.byLoop && name ∉ s.hoisted && !s.sees b then s.rebind name byLoop
      else s.touch name

/-- A store of a value to a variable. -/
def bind (s : Scope) (name : String) (ty : Ty) (byLoop : Bool) : Scope :=
  let joined := (s.lookup name).join ty
  let s := s.bindName name byLoop
  { s with types := s.types.insert name joined }

/-- The variables that are not parameters. -/
def locals (s : Scope) : Dict Local :=
  ⟨(s.types.entries.filter (·.1 ∉ s.params)).map fun (name, ty) =>
    (name, ⟨ty, name ∈ s.hoisted⟩)⟩

end Scope

end Braces
