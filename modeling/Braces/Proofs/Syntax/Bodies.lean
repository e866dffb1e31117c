import Braces.Proofs.Grouping.Written
import Braces.Stmt

/-!
# The statements and expressions of a body

What stands in the body of a routine: its statements at every depth, the expressions that each of
them has itself, and all expressions within those. A function that is defined within a body has a
body of its own, which is not part of it.
-/

namespace Braces

theorem append_subset_append {α : Type} {l₁ l₂ l₁' l₂' : List α} (h₁ : l₁ ⊆ l₁') (h₂ : l₂ ⊆ l₂') :
    l₁ ++ l₂ ⊆ l₁' ++ l₂' :=
  List.append_subset.2
    ⟨List.subset_append_of_subset_left _ h₁, List.subset_append_of_subset_right _ h₂⟩

namespace Stmt

mutual

/-- A statement and all those in its blocks. -/
def within : Stmt → List Stmt
  | .ifElse cond body orelse => .ifElse cond body orelse :: (withinBlock body ++ withinElse orelse)
  | .whileLoop cond body => .whileLoop cond body :: withinBlock body
  | .forLoop name iterable body => .forLoop name iterable body :: withinBlock body
  | s => [s]

def withinBlock : List Stmt → List Stmt
  | [] => []
  | s :: rest => s.within ++ withinBlock rest

def withinElse : Option (List Stmt) → List Stmt
  | none => []
  | some body => withinBlock body

end

/-- The expressions of a statement itself, and not those of its blocks. -/
def operands : Stmt → List Expr
  | .assign _ value => [value]
  | .assignAt target position value => [target, position, value]
  | .print args => args
  | .ifElse cond _ _ | .whileLoop cond _ => [cond]
  | .forLoop _ iterable _ => [iterable]
  | .ret value => value.toList
  | .eval e => [e]
  | .funcDef _ _ _ | .pass | .break_ | .continue_ => []

/-- All expressions of a body, with those within them. -/
def nodes (body : List Stmt) : List Expr :=
  (withinBlock body).flatMap fun s => Expr.partsOf s.operands

theorem mem_nodes {body : List Stmt} {e : Expr} :
    e ∈ nodes body ↔ ∃ s ∈ withinBlock body, e ∈ Expr.partsOf s.operands :=
  List.mem_flatMap

/-- The name that a statement itself gives a value. -/
def target? : Stmt → Option String
  | .assign name _ | .forLoop name _ _ => some name
  | _ => none

/-- The names that the assignments and the loops of a body bind. -/
def boundNames (body : List Stmt) : List String := (withinBlock body).filterMap target?

theorem within_self (s : Stmt) : s ∈ s.within := by
  cases s <;> simp [within]

theorem withinBlock_append (ss ss' : List Stmt) :
    withinBlock (ss ++ ss') = withinBlock ss ++ withinBlock ss' := by
  induction ss with
  | nil => rfl
  | cons s ss ih => rw [List.cons_append, withinBlock, withinBlock, ih, List.append_assoc]

theorem withinBlock_singleton (s : Stmt) : withinBlock [s] = s.within := by
  rw [withinBlock, withinBlock, List.append_nil]

theorem mem_withinBlock {body : List Stmt} {s' : Stmt} :
    s' ∈ withinBlock body ↔ ∃ s ∈ body, s' ∈ s.within := by
  induction body with
  | nil => simp [withinBlock]
  | cons s body ih => simp [withinBlock, ih]

theorem mem_boundNames {s : Stmt} {body : List Stmt} (hs : s ∈ withinBlock body) {x : String}
    (hx : s.target? = some x) : x ∈ boundNames body :=
  List.mem_filterMap.2 ⟨s, hs, hx⟩

end Stmt

namespace Expr

theorem mem_partsOf {es : List Expr} {e : Expr} : e ∈ partsOf es ↔ ∃ e' ∈ es, e ∈ e'.parts := by
  induction es with
  | nil => simp [partsOf]
  | cons e' es ih => simp [partsOf, ih]

end Expr

end Braces
