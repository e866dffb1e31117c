import Braces.Infer.Round

/-!
# A walk as a sequence of steps

What a walk does to a table and a scope is fixed by the text of the routine: it notes a use, takes a
value into a variable, a parameter or a result, or passes the border of a block. Only the types that
it takes in depend on how far the walk has come. So a walk runs a list of steps, and a property of
walks is one of single steps.
-/

namespace Braces

/-- What a store takes its value from: an expression, or the elements of one in turn. -/
inductive Origin where
  | value (e : Expr)
  | elements (iterable : Expr)

namespace Origin

def expr : Origin → Expr
  | .value e | .elements e => e

def isLoop : Origin → Bool
  | .value _ => false
  | .elements _ => true

/-- The type that is stored, given the types of expressions. -/
def ty (typeOf : Expr → Ty) : Origin → Ty
  | .value e => typeOf e
  | .elements e => Visit.elementTy (typeOf e)

end Origin

inductive Step where
  | touch (name : String)
  /-- A store to a variable of the routine. -/
  | bind (name : String) (origin : Origin)
  /-- An argument of a call. -/
  | pass (function : String) (index : Nat) (arg : Expr)
  /-- A returned value. -/
  | give (function : String) (value : Expr)
  | enter
  | exit

namespace Expr

mutual

def steps : Expr → List Step
  | .var name => [.touch name]
  | .binary _ l r => l.steps ++ r.steps
  | .unary _ e | .len e => e.steps
  | .list elements => stepsOf elements
  | .index target position => target.steps ++ position.steps
  | .call name args => argumentSteps name 0 args
  | .range start stop step => start.steps ++ (optionSteps stop ++ optionSteps step)
  | .int _ | .float _ | .str _ | .bool _ => []

def stepsOf : List Expr → List Step
  | [] => []
  | e :: es => e.steps ++ stepsOf es

def optionSteps : Option Expr → List Step
  | none => []
  | some e => e.steps

def argumentSteps (name : String) (index : Nat) : List Expr → List Step
  | [] => []
  | arg :: args => arg.steps ++ .pass name index arg :: argumentSteps name (index + 1) args

end

end Expr

namespace Stmt

mutual

def steps (routine : String) : Stmt → List Step
  | .assign name value => value.steps ++ [.bind name (.value value)]
  | .assignAt target position value => target.steps ++ (position.steps ++ value.steps)
  | .print args => Expr.stepsOf args
  | .ifElse cond body orelse =>
    cond.steps ++ .enter :: (blockSteps routine body ++ .exit :: elseSteps routine orelse)
  | .whileLoop cond body => cond.steps ++ .enter :: (blockSteps routine body ++ [.exit])
  | .forLoop name iterable body =>
    iterable.steps ++
      .enter :: .bind name (.elements iterable) :: (blockSteps routine body ++ [.exit])
  | .ret (some e) => e.steps ++ if routine = entryName then [] else [.give routine e]
  | .eval e => e.steps
  | .ret none | .funcDef _ _ _ | .pass | .break_ | .continue_ => []

def blockSteps (routine : String) : List Stmt → List Step
  | [] => []
  | s :: rest => s.steps routine ++ blockSteps routine rest

def elseSteps (routine : String) : Option (List Stmt) → List Step
  | none => []
  | some body => .enter :: (blockSteps routine body ++ [.exit])

end

end Stmt

namespace Visit

def step (v : Visit) : Step → Visit
  | .touch name => v.touch name
  | .bind name origin => v.bind name (origin.ty v.typeOf) origin.isLoop
  | .pass function index arg => v.refineParam function index (v.typeOf arg)
  | .give function value => v.refineResult function (v.typeOf value)
  | .enter => v.enter
  | .exit => v.exit

def run (v : Visit) (steps : List Step) : Visit := steps.foldl step v

@[simp] theorem run_nil (v : Visit) : v.run [] = v := rfl

@[simp] theorem run_cons (v : Visit) (st : Step) (steps : List Step) :
    v.run (st :: steps) = (v.step st).run steps := rfl

@[simp] theorem run_append (v : Visit) (steps steps' : List Step) :
    v.run (steps ++ steps') = (v.run steps).run steps' :=
  List.foldl_append

mutual

theorem expr_eq_run : ∀ (e : Expr) (v : Visit), expr e v = v.run e.steps
  | .var _, _ => rfl
  | .binary _ l r, v => by
    rw [expr, Expr.steps, run_append, expr_eq_run l, expr_eq_run r]
  | .unary _ e, v => by
    rw [expr, Expr.steps]
    exact expr_eq_run e v
  | .len e, v => by
    rw [expr, Expr.steps]
    exact expr_eq_run e v
  | .list es, v => by
    rw [expr, Expr.steps]
    exact exprs_eq_run es v
  | .index target position, v => by
    rw [expr, Expr.steps, run_append, expr_eq_run target, expr_eq_run position]
  | .call name args, v => by
    rw [expr, Expr.steps]
    exact arguments_eq_run name 0 args v
  | .range start stop step, v => by
    rw [expr, Expr.steps, run_append, run_append, expr_eq_run start, option_eq_run stop,
      option_eq_run step]
  | .int _, _ | .float _, _ | .str _, _ | .bool _, _ => rfl

theorem exprs_eq_run : ∀ (es : List Expr) (v : Visit), exprs es v = v.run (Expr.stepsOf es)
  | [], _ => rfl
  | e :: es, v => by
    rw [exprs, Expr.stepsOf, run_append, expr_eq_run e, exprs_eq_run es]

theorem option_eq_run : ∀ (e : Option Expr) (v : Visit), option e v = v.run (Expr.optionSteps e)
  | none, _ => rfl
  | some e, v => by
    rw [option, Expr.optionSteps]
    exact expr_eq_run e v

theorem arguments_eq_run : ∀ (name : String) (index : Nat) (args : List Expr) (v : Visit),
    arguments name index args v = v.run (Expr.argumentSteps name index args)
  | _, _, [], _ => rfl
  | name, index, arg :: args, v => by
    rw [arguments, Expr.argumentSteps, run_append, run_cons, expr_eq_run arg]
    exact arguments_eq_run name (index + 1) args _

end

mutual

theorem stmt_eq_run (routine : String) : ∀ (s : Stmt) (v : Visit),
    stmt routine s v = v.run (s.steps routine)
  | .assign name value, v => by
    rw [stmt, Stmt.steps, run_append, expr_eq_run value]
    rfl
  | .assignAt target position value, v => by
    rw [stmt, Stmt.steps, run_append, run_append, expr_eq_run target, expr_eq_run position,
      expr_eq_run value]
  | .print args, v => by
    rw [stmt, Stmt.steps]
    exact exprs_eq_run args v
  | .ifElse cond body orelse, v => by
    rw [stmt, Stmt.steps, run_append, run_cons, run_append, run_cons, expr_eq_run cond,
      block_eq_run routine body, otherwise_eq_run routine orelse]
    rfl
  | .whileLoop cond body, v => by
    rw [stmt, Stmt.steps, run_append, run_cons, run_append, expr_eq_run cond,
      block_eq_run routine body]
    rfl
  | .forLoop name iterable body, v => by
    -- Entering the block changes no type, so the elements may be typed after it.
    rw [stmt, Stmt.steps, run_append, run_cons, run_cons, run_append, expr_eq_run iterable,
      block_eq_run routine body]
    rfl
  | .ret (some e), v => by
    rw [stmt, Stmt.steps, run_append, expr_eq_run e]
    split <;> rfl
  | .eval e, v => by
    rw [stmt, Stmt.steps]
    exact expr_eq_run e v
  | .ret none, _ | .funcDef _ _ _, _ | .pass, _ | .break_, _ | .continue_, _ => rfl

theorem block_eq_run (routine : String) : ∀ (body : List Stmt) (v : Visit),
    block routine body v = v.run (Stmt.blockSteps routine body)
  | [], _ => rfl
  | s :: rest, v => by
    rw [block, Stmt.blockSteps, run_append, stmt_eq_run routine s, block_eq_run routine rest]

theorem otherwise_eq_run (routine : String) : ∀ (orelse : Option (List Stmt)) (v : Visit),
    otherwise routine orelse v = v.run (Stmt.elseSteps routine orelse)
  | none, _ => rfl
  | some body, v => by
    rw [otherwise, Stmt.elseSteps, run_cons, run_append, block_eq_run routine body]
    rfl

end

end Visit

end Braces
