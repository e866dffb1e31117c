import Braces.Proofs.Running.Coupling

/-!
# Returns without their values

A body with bare returns does what the body itself does, until it returns: then it leaves out the
value. So it shows the memory in which a function returns, before what is returned is evaluated. In
a routine that does not look at what it returns, both bodies do the same.
-/

namespace Braces

open Attempt Run

namespace Stmt

mutual

/-- A statement whose returns are bare. -/
def bare : Stmt → Stmt
  | .ifElse cond body orelse => .ifElse cond (bareBlock body) (bareElse orelse)
  | .whileLoop cond body => .whileLoop cond (bareBlock body)
  | .forLoop name iterable body => .forLoop name iterable (bareBlock body)
  | .ret _ => .ret none
  | s => s

def bareBlock : List Stmt → List Stmt
  | [] => []
  | s :: rest => s.bare :: bareBlock rest

def bareElse : Option (List Stmt) → Option (List Stmt)
  | none => none
  | some body => some (bareBlock body)

end

mutual

theorem within_bare : ∀ s : Stmt, s.bare.within = s.within.map bare
  | .ifElse cond body orelse => by
    rw [within, List.map_cons, List.map_append, ← withinBlock_bareBlock body,
      ← withinElse_bareElse orelse]
    rfl
  | .whileLoop cond body | .forLoop name iterable body => by
    rw [within, List.map_cons, ← withinBlock_bareBlock body]
    rfl
  | .assign _ _ | .assignAt _ _ _ | .print _ | .funcDef _ _ _ | .ret _ | .eval _ | .pass | .break_
  | .continue_ => rfl

/-- The statements of a body with bare returns are those of the body, with bare returns. -/
theorem withinBlock_bareBlock : ∀ ss : List Stmt,
    withinBlock (bareBlock ss) = (withinBlock ss).map bare
  | [] => rfl
  | s :: rest => by
    rw [bareBlock, withinBlock, withinBlock, List.map_append, within_bare s,
      withinBlock_bareBlock rest]

theorem withinElse_bareElse : ∀ orelse : Option (List Stmt),
    withinElse (bareElse orelse) = (withinElse orelse).map bare
  | none => rfl
  | some body => withinBlock_bareBlock body

end

theorem target?_bare (s : Stmt) : s.bare.target? = s.target? := by
  cases s <;> rfl

theorem boundNames_bareBlock (ss : List Stmt) : boundNames (bareBlock ss) = boundNames ss := by
  rw [boundNames, withinBlock_bareBlock, List.filterMap_map]
  exact congrArg (List.filterMap · (withinBlock ss)) (funext target?_bare)

/-- What a statement returns is no part of what it may do. -/
theorem Meets.bare {vis own : String → Prop} {s : Stmt} (h : s.Meets vis own) :
    s.bare.Meets vis own := by
  refine ⟨fun x hx => h.binds x (target?_bare s ▸ hx), ?_, ?_⟩
  · cases s <;> exact h.flat
  · cases s with
    | ret value => nofun
    | _ => exact h.reads

theorem eq_none_of_bare {s : Stmt} {value : Option Expr} (h : s.bare = .ret value) :
    value = none := by
  cases s <;> cases h
  rfl

end Stmt

/-- A function that returns no value. -/
def Function.bare (fn : Function) : Function := { fn with body := Stmt.bareBlock fn.body }

theorem Function.own_bare (fn : Function) : fn.bare.own = fn.own := by
  rw [own, own, bare, Stmt.boundNames_bareBlock]

variable {V H α : Type}

namespace Machine

variable (M : Machine V H)

mutual

/-- Outside of functions, returns are bare anyway. -/
theorem exec_module_bare : ∀ s : Stmt, M.exec .module s.bare = M.exec .module s
  | .ifElse cond body orelse => by
    rw [Stmt.bare, exec, exec, block_module_bare body, otherwise_module_bare orelse]
  | .whileLoop cond body | .forLoop name iterable body => by
    rw [Stmt.bare, exec, exec, block_module_bare body]
  | .ret _ => by
    rw [Stmt.bare, exec, exec]
    rfl
  | .assign _ _ | .assignAt _ _ _ | .print _ | .funcDef _ _ _ | .eval _ | .pass | .break_
  | .continue_ => rfl

theorem block_module_bare : ∀ ss : List Stmt,
    M.block .module (Stmt.bareBlock ss) = M.block .module ss
  | [] => rfl
  | s :: rest => by
    rw [Stmt.bareBlock, block, block, exec_module_bare s, block_module_bare rest]

theorem otherwise_module_bare : ∀ orelse : Option (List Stmt),
    M.otherwise .module (Stmt.bareElse orelse) = M.otherwise .module orelse
  | none => rfl
  | some body => block_module_bare body

end

end Machine

/-! ## Until a return -/

/-- Whether a run came to an end by a return. -/
def Result.returns (o : Result V H (Flow V)) : Bool :=
  match o.1 with
  | .ok flow => flow.isReturn
  | .error _ => false

/-- The second routine has returned, and the first does nothing more either. -/
def Ending.returning : Ending V H where
  rel o o' := Result.Ends o ∧ Result.returns o' = true
  ends := by
    rintro o o' ⟨hends, hreturns⟩
    refine ⟨hends, fun flow hflow => ?_⟩
    rwa [Result.returns, hflow] at hreturns

theorem tracks_self (x : Run V H α) : Tracks (· = ·) x x := by
  rintro m _ rfl
  generalize x.on m = o
  obtain ⟨result, m₁⟩ := o
  cases result with
  | error e => exact .fault e rfl
  | ok a => exact .value trivial rfl

section
variable (M : Machine V H) (own : List String) (outer : String → Option V)

theorem mirrors_ret_bare (value : Option Expr) :
    Mirrors (· = ·) .returning (M.ret (.call own outer) value) (M.ret (.call own outer) none) := by
  rintro m _ rfl
  refine .ended ⟨fun flow hflow => ?_, rfl⟩
  rw [Machine.ret] at hflow
  generalize ho : (M.evalOption (.call own outer) value).on m = o at hflow
  obtain ⟨result, m₁⟩ := o
  cases result with
  | error e =>
    rw [on_bind_error ho] at hflow
    cases hflow
  | ok v? =>
    rw [on_bind_ok ho] at hflow
    cases hflow
    rfl

mutual

/-- In a function, a statement with bare returns does what the statement does, until it returns. -/
theorem mirrors_exec_bare : ∀ s : Stmt,
    Mirrors (· = ·) .returning (M.exec (.call own outer) s) (M.exec (.call own outer) s.bare)
  | .ifElse cond body orelse => by
    rw [Stmt.bare, Machine.exec, Machine.exec]
    refine Accords.bind (tracks_self _) fun _ => Accords.bind (tracks_self _) fun _ => ?_
    exact Accords.ite (mirrors_block_bare body) (mirrors_otherwise_bare orelse)
  | .whileLoop cond body => by
    rw [Stmt.bare, Machine.exec, Machine.exec]
    exact .cycle (fun _ => tracks_self _) (mirrors_block_bare body) _ _
  | .forLoop name iterable body => by
    rw [Stmt.bare, Machine.exec, Machine.exec]
    refine Accords.bind (tracks_self _) fun _ => ?_
    exact Mirrors.cycle (fun _ => tracks_self _) (mirrors_block_bare body) _ _
  | .ret value => by
    rw [Stmt.bare, Machine.exec, Machine.exec]
    exact mirrors_ret_bare M own outer value
  | .assign x value => by
    change Mirrors _ _ _ (M.exec _ (.assign x value))
    rw [Machine.exec]
    exact Accords.bind (tracks_self _) fun _ => Accords.bind (tracks_self _) fun _ => .pure rfl
  | .assignAt target position value => by
    change Mirrors _ _ _ (M.exec _ (.assignAt target position value))
    rw [Machine.exec]
    refine Accords.bind (tracks_self _) fun _ => Accords.bind (tracks_self _) fun _ => ?_
    exact Accords.bind (tracks_self _) fun _ => Accords.bind (tracks_self _) fun _ => .pure rfl
  | .print args => by
    change Mirrors _ _ _ (M.exec _ (.print args))
    rw [Machine.exec]
    refine Accords.bind (tracks_self _) fun _ => Accords.bind (tracks_self _) fun _ => ?_
    exact Accords.bind (tracks_self _) fun _ => .pure rfl
  | .funcDef name params body => by
    change Mirrors _ _ _ (M.exec _ (.funcDef name params body))
    rw [Machine.exec]
    exact Accords.bind (tracks_self _) fun _ => .pure rfl
  | .eval e => by
    change Mirrors _ _ _ (M.exec _ (.eval e))
    rw [Machine.exec]
    exact Accords.bind (tracks_self _) fun _ => .pure rfl
  | .pass => .pure rfl
  | .break_ => .pure rfl
  | .continue_ => .pure rfl

theorem mirrors_block_bare : ∀ ss : List Stmt,
    Mirrors (· = ·) .returning (M.block (.call own outer) ss)
      (M.block (.call own outer) (Stmt.bareBlock ss))
  | [] => by
    rw [Stmt.bareBlock, Machine.block]
    exact .pure rfl
  | s :: rest => by
    rw [Stmt.bareBlock, Machine.block, Machine.block]
    exact (mirrors_exec_bare s).andThen (mirrors_block_bare rest)

theorem mirrors_otherwise_bare : ∀ orelse : Option (List Stmt),
    Mirrors (· = ·) .returning (M.otherwise (.call own outer) orelse)
      (M.otherwise (.call own outer) (Stmt.bareElse orelse))
  | none => by
    rw [Stmt.bareElse, Machine.otherwise]
    exact .pure rfl
  | some body => by
    rw [Stmt.bareElse, Machine.otherwise, Machine.otherwise]
    exact mirrors_block_bare body

end

end

end Braces
