import Braces.Emit
import Braces.Proofs.Reordering.Tables

/-!
# What emission reads of a table

A routine is emitted from the signatures that its table has under the names of functions and from
its own locals. So it is emitted the same way from every table with these, whatever else the table
lists and in whatever order.
-/

namespace Braces

namespace Frame

/-- Two frames of one routine with the same signatures and locals. -/
structure Alike (f f' : Frame) : Prop where
  routine : f.routine = f'.routine
  signature : ∀ name, f.table.signature? name = f'.table.signature? name
  locals : f.table.localsOf? f.routine = f'.table.localsOf? f'.routine

namespace Alike

variable {f f' : Frame} (h : f.Alike f')

include h

theorem params : f.params = f'.params := by
  rw [Frame.params, Frame.params, Table.paramsOf, Table.paramsOf, h.routine, h.signature]

theorem local? (name : String) :
    f.table.local? f.routine name = f'.table.local? f'.routine name := by
  rw [Table.local?, Table.local?, h.locals]

theorem hoisted : f.table.hoisted f.routine = f'.table.hoisted f'.routine := by
  rw [Table.hoisted, Table.hoisted, h.locals]

theorem varNames : f.varNames = f'.varNames := by
  rw [Frame.varNames, Frame.varNames, h.locals, h.params]

theorem isVariable (name : String) : f.isVariable name = f'.isVariable name := by
  rw [Frame.isVariable, Frame.isVariable, h.local?, h.params]

theorem varTy : f.varTy = f'.varTy := by
  funext name
  rw [Frame.varTy, Frame.varTy, h.local?, h.params]

theorem typeOf : f.typeOf = f'.typeOf := by
  funext e
  rw [Frame.typeOf, Frame.typeOf, h.varTy]
  refine Table.typeOf_eq_of_slots (fun c => ?_) _ e
  cases c <;> simp only [Table.slotTy?, Table.paramsOf, h.signature]

theorem operand : f.operand = f'.operand := by
  have hcall : f.emitsCall = f'.emitsCall := by
    funext e
    unfold Frame.emitsCall
    rw [h.typeOf]
  have hgroup : f.needsGroup = f'.needsGroup := by
    funext parent right e
    unfold Frame.needsGroup
    rw [hcall]
  funext parent right e c
  rw [Frame.operand, Frame.operand, hgroup]

theorem condition : f.condition = f'.condition := by
  funext parent right e c
  rw [Frame.condition, Frame.condition, h.typeOf, h.operand]

theorem truth : f.truth = f'.truth := by
  funext e c
  rw [Frame.truth, Frame.truth, h.typeOf]

theorem infixed : f.infixed = f'.infixed := by
  funext op l r cl cr
  unfold Frame.infixed
  rw [h.operand]

theorem checkElements : f.checkElements = f'.checkElements := by
  funext elements
  rw [Frame.checkElements, Frame.checkElements, h.typeOf]

theorem checkSubscript : f.checkSubscript = f'.checkSubscript := by
  funext target position
  unfold Frame.checkSubscript
  rw [h.typeOf]

theorem calleeParams : f.calleeParams = f'.calleeParams := by
  funext name given
  rw [Frame.calleeParams, Frame.calleeParams, h.signature]

omit h

/-! ## Expressions -/

mutual

theorem expr (h : f.Alike f') : ∀ e : Expr, f.expr e = f'.expr e
  | .int _ | .float _ | .str _ | .bool _ => rfl
  | .var name => by rw [Frame.expr, Frame.expr, h.isVariable]
  | .binary op l r => by
    rw [Frame.expr, Frame.expr, h.typeOf, h.operand, h.condition, h.infixed, h.expr l, h.expr r]
  | .unary op e => by rw [Frame.expr, Frame.expr, h.typeOf, h.expr e]
  | .list es => by rw [Frame.expr, Frame.expr, h.checkElements, h.exprs es]
  | .index target position => by
    rw [Frame.expr, Frame.expr, h.checkSubscript, h.typeOf, h.expr target, h.expr position]
  | .call name [] => by
    simp only [Frame.expr, h.calleeParams, Frame.arguments]
  | .call name [arg] => by
    simp only [Frame.expr, h.calleeParams, h.expr arg, fun ps => h.arguments name ps [arg]]
  | .call name (arg :: arg' :: args) => by
    simp only [Frame.expr, h.calleeParams, fun ps => h.arguments name ps (arg :: arg' :: args)]
  | .len e => by rw [Frame.expr, Frame.expr, h.typeOf, h.expr e]
  | .range start stop step => by
    rw [Frame.expr, Frame.expr, h.option step, h.expr start, h.option stop]

theorem exprs (h : f.Alike f') : ∀ es : List Expr, f.exprs es = f'.exprs es
  | [] => rfl
  | e :: es => by rw [Frame.exprs, Frame.exprs, h.expr e, h.exprs es]

theorem option (h : f.Alike f') : ∀ e : Option Expr, f.option e = f'.option e
  | none => rfl
  | some e => by rw [Frame.option, Frame.option, h.expr e]

theorem arguments (h : f.Alike f') (name : String) : ∀ (ps : List Param) (args : List Expr),
    f.arguments name ps args = f'.arguments name ps args
  | p :: ps, arg :: args => by
    rw [Frame.arguments, Frame.arguments, h.typeOf, h.expr arg, h.arguments name ps args]
  | [], _ => by simp only [Frame.arguments]
  | _ :: _, [] => rfl

end

/-! ## Statements -/

section
variable (h : f.Alike f')

include h

theorem assign (name : String) (value : Expr) (st : Progress) :
    f.assign name value st = f'.assign name value st := by
  have hinitial : ∀ ty, f.initial ty value = f'.initial ty value := by
    intro ty
    unfold Frame.initial
    simp only [h.checkElements, h.exprs, h.expr]
  have hty : f.declType name value = f'.declType name value := by
    simp only [Frame.declType, h.typeOf, h.varTy]
  simp only [Frame.assign, h.varTy, h.typeOf, h.expr, hty, hinitial]

theorem assignAt (target position value : Expr) :
    f.assignAt target position value = f'.assignAt target position value := by
  simp only [Frame.assignAt, h.typeOf, h.checkSubscript, h.expr]

theorem print (args : List Expr) : f.print args = f'.print args := by
  rw [Frame.print, Frame.print, h.exprs]

theorem loopStore : f.loopStore = f'.loopStore := by
  funext fresh name value
  rw [Frame.loopStore, Frame.loopStore, h.varTy]

theorem rangeHead : f.rangeHead = f'.rangeHead := by
  funext st name start stop step assigned
  simp only [Frame.rangeHead, h.typeOf, h.expr, h.option, h.varNames, h.loopStore]

theorem collectionHead : f.collectionHead = f'.collectionHead := by
  funext st name iterable assigned
  simp only [Frame.collectionHead, h.typeOf, h.expr, h.varNames, h.varTy, h.loopStore]

theorem loopHead : f.loopHead = f'.loopHead := by
  funext st name iterable assigned
  unfold Frame.loopHead
  rw [h.rangeHead, h.collectionHead]

theorem ret (value : Option Expr) : f.ret value = f'.ret value := by
  simp only [Frame.ret, h.routine, h.signature, h.typeOf, h.expr]

end

mutual

theorem stmt (h : f.Alike f') : ∀ (s : Stmt) (inLoop : Bool) (st : Progress),
    f.stmt inLoop st s = f'.stmt inLoop st s
  | .assign name value, _, st => h.assign name value st
  | .assignAt target position value, _, _ => by
    rw [Frame.stmt, Frame.stmt, h.assignAt target position value]
  | .print args, _, _ => by rw [Frame.stmt, Frame.stmt, h.print args]
  | .ifElse cond body orelse, _, _ => by
    simp only [Frame.stmt, h.expr cond, h.truth, h.block body, h.otherwise orelse]
  | .whileLoop cond body, _, _ => by
    simp only [Frame.stmt, h.expr cond, h.truth, h.block body]
  | .forLoop name iterable body, _, _ => by
    simp only [Frame.stmt, h.loopHead, h.block body]
  | .ret value, _, _ => by rw [Frame.stmt, Frame.stmt, h.ret value]
  | .eval e, _, _ => by rw [Frame.stmt, Frame.stmt, h.expr e]
  | .funcDef _ _ _, _, _ | .pass, _, _ | .break_, _, _ | .continue_, _, _ => rfl

theorem block (h : f.Alike f') : ∀ (body : List Stmt) (inLoop : Bool) (st : Progress),
    f.block inLoop st body = f'.block inLoop st body
  | [], _, _ => rfl
  | s :: rest, _, _ => by simp only [Frame.block, h.stmt s, h.block rest]

theorem otherwise (h : f.Alike f') : ∀ (orelse : Option (List Stmt)) (inLoop : Bool)
    (st : Progress), f.otherwise inLoop st orelse = f'.otherwise inLoop st orelse
  | none, _, _ => rfl
  | some body, inLoop, st => by
    unfold Frame.otherwise
    split
    · next hnone => cases hnone
    · next cond body orelse hsome =>
      cases hsome
      simp only [h.expr cond, h.truth, h.block body, h.otherwise orelse]
    · next hsome =>
      cases hsome
      simp only [h.block body]

end

/-- Frames that are alike emit a body the same way. -/
theorem body (h : f.Alike f') (params : List Param) (stmts : List Stmt) :
    f.body params stmts = f'.body params stmts := by
  simp only [Frame.body, Frame.reserved, Frame.start, h.hoisted, h.block]

end Alike

end Frame

end Braces
