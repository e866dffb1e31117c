import Braces.Emit.Stmt
import Braces.Proofs.Emission.Expr
import Braces.Proofs.Visibility

/-!
# The variables of emitted expressions

An emitted expression uses no variable but those of its source. Grouping, conversions and helpers
add none. So does the line of a statement that neither declares anything nor has a body.
-/

namespace Braces

namespace Expr

mutual

/-- The variables that an expression reads, at any depth. -/
def vars : Expr → List String
  | .var name => [name]
  | .binary _ l r => l.vars ++ r.vars
  | .unary _ e | .len e => e.vars
  | .list elements => varsOf elements
  | .index target position => target.vars ++ position.vars
  | .call _ args => varsOf args
  | .range start stop step => start.vars ++ (varsOfOption stop ++ varsOfOption step)
  | .int _ | .float _ | .str _ | .bool _ => []

def varsOf : List Expr → List String
  | [] => []
  | e :: es => e.vars ++ varsOf es

def varsOfOption : Option Expr → List String
  | none => []
  | some e => e.vars

end

end Expr

theorem Cpp.Expr.namesOf_singleton (c : Cpp.Expr) : Cpp.Expr.namesOf [c] = c.names :=
  List.append_nil c.names

theorem Cpp.Expr.namesOf_pair (c d : Cpp.Expr) : Cpp.Expr.namesOf [c, d] = c.names ++ d.names :=
  congrArg (c.names ++ ·) (namesOf_singleton d)

namespace Frame

variable {f : Frame}

@[simp] theorem names_operand (parent : Nat) (right : Bool) (e : Expr) (c : Cpp.Expr) :
    (f.operand parent right e c).names = c.names := by
  unfold operand
  split <;> rfl

@[simp] theorem names_atom (e : Expr) (c : Cpp.Expr) : (atom e c).names = c.names := by
  unfold atom
  split <;> rfl

@[simp] theorem names_sequence (e : Expr) (c : Cpp.Expr) : (sequence e c).names = c.names := by
  unfold sequence
  split
  · exact Cpp.Expr.namesOf_singleton c
  · exact names_atom e c

@[simp] theorem names_truth (e : Expr) (c : Cpp.Expr) : (f.truth e c).names = c.names := by
  unfold truth
  split
  · exact Cpp.Expr.namesOf_singleton c
  · rfl

@[simp] theorem names_condition (parent : Nat) (right : Bool) (e : Expr) (c : Cpp.Expr) :
    (f.condition parent right e c).names = c.names := by
  unfold condition
  split
  · exact Cpp.Expr.namesOf_singleton c
  · exact names_operand parent right e c

@[simp] theorem names_infixed (op : BinOp) (l r : Expr) (cl cr : Cpp.Expr) :
    (f.infixed op l r cl cr).names = cl.names ++ cr.names := by
  have hl := names_operand (f := f) op.precedence false l cl
  have hr := names_operand (f := f) op.precedence true r cr
  unfold infixed
  cases l with
  | str s => exact congr (congrArg (· ++ ·) ((Cpp.Expr.namesOf_singleton _).trans hl)) hr
  | _ => exact congr (congrArg (· ++ ·) hl) hr

@[simp] theorem names_argument (p : Param) (arg : Expr) (c : Cpp.Expr) :
    (argument p arg c).names = c.names := by
  unfold argument
  split
  · rfl
  · exact Cpp.Expr.namesOf_singleton c
  · rfl

@[simp] theorem names_element (target : Expr) (ct ci : Cpp.Expr) :
    (element target ct ci).names = ct.names ++ ci.names := by
  rw [← names_sequence target ct]
  exact Cpp.Expr.namesOf_pair (sequence target ct) ci

theorem names_combined (op : BinOp) (l r : Expr) (cl cr : Cpp.Expr) (sh : Shape) :
    (f.combined op l r cl cr sh).names ⊆ cl.names ++ cr.names := by
  cases sh <;> simp [combined, Cpp.Expr.names, Cpp.Expr.namesOf]

mutual

theorem Emits.names_subset :
    ∀ {e : Expr} {c : Cpp.Expr}, f.Emits e c → c.names ⊆ e.vars.map .source
  | _, _, .int _ | _, _, .float _ | _, _, .str _ | _, _, .bool _ => List.nil_subset _
  | _, _, .var _ => by simp [Cpp.Expr.names, Expr.vars]
  | _, _, .binary _ hl hr => by
    rw [Expr.vars, List.map_append]
    refine List.Subset.trans (names_combined ..) (List.append_subset.mpr ⟨?_, ?_⟩)
    · exact List.subset_append_of_subset_left _ hl.names_subset
    · exact List.subset_append_of_subset_right _ hr.names_subset
  | _, _, .not he => by
    split
    · simpa [Cpp.Expr.names, Cpp.Expr.namesOf, Expr.vars] using he.names_subset
    · simpa [Cpp.Expr.names, Expr.vars] using he.names_subset
  | _, _, .sign _ _ he => by simpa [Cpp.Expr.names, Expr.vars] using he.names_subset
  | _, _, .list _ hes => hes.names_subset
  | _, _, .index _ ht hp => by
    have h := List.append_subset.mpr ⟨List.subset_append_of_subset_left _ ht.names_subset,
      List.subset_append_of_subset_right _ hp.names_subset⟩
    rw [Expr.vars, List.map_append]
    split <;> simpa [Cpp.Expr.names, Cpp.Expr.namesOf] using h
  | _, _, .emptyText => List.nil_subset _
  | _, _, .text he => by
    simpa [Cpp.Expr.names, Cpp.Expr.namesOf, Expr.vars, Expr.varsOf] using he.names_subset
  | _, _, .call _ _ hargs => hargs.names_subset
  | _, _, .len _ he => by simpa [Cpp.Expr.names, Expr.vars] using he.names_subset
  | _, _, @Emits.range _ start stop step cstart cstop cstep hstart hstop hstep => by
    have istart := hstart.names_subset
    have istop := hstop.names_subset
    have istep : (cstep.getD (.int 1)).names ⊆ (Expr.varsOfOption step).map .source := by
      cases cstep with
      | none => exact List.nil_subset _
      | some c => exact hstep.names_subset
    rw [Expr.vars, List.map_append, List.map_append]
    intro n hn
    cases cstop with
    | none =>
      simp only [Cpp.Expr.names, Cpp.Expr.namesOf, List.append_nil, List.nil_append] at hn
      rcases List.mem_append.mp hn with hn | hn
      · exact List.mem_append_left _ (istart hn)
      · exact List.mem_append_right _ (List.mem_append_right _ (istep hn))
    | some c =>
      simp only [Cpp.Expr.names, Cpp.Expr.namesOf, List.append_nil, List.mem_append] at hn
      rcases hn with hn | hn | hn
      · exact List.mem_append_left _ (istart hn)
      · exact List.mem_append_right _ (List.mem_append_left _ (istop hn))
      · exact List.mem_append_right _ (List.mem_append_right _ (istep hn))

theorem EmitsAll.names_subset : ∀ {es : List Expr} {cs : List Cpp.Expr}, f.EmitsAll es cs →
    Cpp.Expr.namesOf cs ⊆ (Expr.varsOf es).map .source
  | _, _, .nil => List.nil_subset _
  | _, _, .cons he hes => by
    rw [Expr.varsOf, List.map_append]
    exact List.append_subset.mpr ⟨List.subset_append_of_subset_left _ he.names_subset,
      List.subset_append_of_subset_right _ hes.names_subset⟩

theorem EmitsOption.names_subset : ∀ {e : Option Expr} {c : Option Cpp.Expr}, f.EmitsOption e c →
    (c.map Cpp.Expr.names).getD [] ⊆ (Expr.varsOfOption e).map .source
  | _, _, .absent => List.nil_subset _
  | _, _, .present he => he.names_subset

theorem EmitsArgs.names_subset : ∀ {name : String} {ps : List Param} {args : List Expr}
    {cs : List Cpp.Expr}, f.EmitsArgs name ps args cs →
    Cpp.Expr.namesOf cs ⊆ (Expr.varsOf args).map .source
  | _, _, _, _, .done => List.nil_subset _
  | _, _, _, _, .surplus => List.nil_subset _
  | _, _, _, _, .next _ he hes => by
    rw [Expr.varsOf, List.map_append, Cpp.Expr.namesOf, names_argument]
    exact List.append_subset.mpr ⟨List.subset_append_of_subset_left _ he.names_subset,
      List.subset_append_of_subset_right _ hes.names_subset⟩

end

theorem names_subset_of_expr {e : Expr} {c : Cpp.Expr} (h : f.expr e = .ok c) :
    c.names ⊆ e.vars.map .source :=
  (emits_of_expr h).names_subset

theorem namesOf_subset_of_exprs {es : List Expr} {cs : List Cpp.Expr} (h : f.exprs es = .ok cs) :
    Cpp.Expr.namesOf cs ⊆ (Expr.varsOf es).map .source :=
  (emits_of_exprs h).names_subset

theorem names_subset_of_initial {ty : Cpp.DeclType} {value : Expr} {c : Cpp.Expr}
    (h : f.initial ty value = .ok c) : c.names ⊆ value.vars.map .source := by
  unfold initial at h
  split at h
  · split at h
    · obtain ⟨_, _, h⟩ := exists_of_bind_eq_ok h
      obtain ⟨cs, hcs, h⟩ := exists_of_bind_eq_ok h
      cases h
      exact namesOf_subset_of_exprs hcs
    · exact names_subset_of_expr h
  · exact names_subset_of_expr h

/-- A statement of one line that only uses some variables. -/
def OnlyUses (xs : List String) (c : Cpp.Stmt) : Prop :=
  ∃ names : List Cpp.Name, c.marks = [names.map .uses] ∧ names ⊆ xs.map .source

theorem onlyUses_of_assignAt {target position value : Expr} {c : Cpp.Stmt}
    (h : f.assignAt target position value = .ok c) :
    OnlyUses (target.vars ++ position.vars ++ value.vars) c := by
  unfold assignAt at h
  dsimp only at h
  split at h
  case isFalse => cases h
  obtain ⟨_, _, h⟩ := exists_of_bind_eq_ok h
  obtain ⟨_, _, h⟩ := exists_of_bind_eq_ok h
  obtain ⟨ct, ht, h⟩ := exists_of_bind_eq_ok h
  obtain ⟨ci, hi, h⟩ := exists_of_bind_eq_ok h
  obtain ⟨cv, hv, h⟩ := exists_of_bind_eq_ok h
  cases h
  refine ⟨ct.names ++ ci.names ++ cv.names, ?_, ?_⟩
  · simp [Cpp.Stmt.marks, Cpp.Expr.uses]
  · rw [List.map_append, List.map_append]
    exact List.append_subset.mpr ⟨List.subset_append_of_subset_left _
      (List.append_subset.mpr ⟨List.subset_append_of_subset_left _ (names_subset_of_expr ht),
        List.subset_append_of_subset_right _ (names_subset_of_expr hi)⟩),
      List.subset_append_of_subset_right _ (names_subset_of_expr hv)⟩

theorem names_outputItem (arg : Expr) (c : Cpp.Expr) : (outputItem arg c).names = c.names := by
  unfold outputItem
  split
  · rfl
  · exact Cpp.Expr.namesOf_singleton c

theorem namesOf_outputItems (args : List Expr) (cs : List Cpp.Expr) :
    Cpp.Expr.namesOf (List.zipWith outputItem args cs) ⊆ Cpp.Expr.namesOf cs := by
  induction cs generalizing args with
  | nil => simp [Cpp.Expr.namesOf]
  | cons c cs ih =>
    cases args with
    | nil => exact List.nil_subset _
    | cons arg args =>
      rw [List.zipWith_cons_cons, Cpp.Expr.namesOf, Cpp.Expr.namesOf, names_outputItem]
      exact List.append_subset.mpr ⟨List.subset_append_left _ _,
        List.subset_append_of_subset_right _ (ih args)⟩

theorem onlyUses_of_print {args : List Expr} {c : Cpp.Stmt} (h : f.print args = .ok c) :
    OnlyUses (Expr.varsOf args) c := by
  unfold print at h
  obtain ⟨cs, hcs, h⟩ := exists_of_bind_eq_ok h
  cases h
  exact ⟨_, rfl, List.Subset.trans (namesOf_outputItems args cs) (namesOf_subset_of_exprs hcs)⟩

theorem onlyUses_of_eval {e : Expr} {c : Cpp.Expr} (h : f.expr e = .ok c) :
    OnlyUses e.vars (.eval c) :=
  ⟨c.names, rfl, names_subset_of_expr h⟩

theorem onlyUses_of_ret {value : Option Expr} {c : Cpp.Stmt} (h : f.ret value = .ok c) :
    OnlyUses (Expr.varsOfOption value) c := by
  unfold ret at h
  split at h
  · cases h
    exact ⟨[], rfl, List.nil_subset _⟩
  · cases value with
    | some e =>
      obtain ⟨_, _, h⟩ := exists_of_bind_eq_ok h
      obtain ⟨ce, hce, h⟩ := exists_of_bind_eq_ok h
      cases h
      exact ⟨ce.names, rfl, names_subset_of_expr hce⟩
    | none =>
      cases h
      refine ⟨[], ?_, List.nil_subset _⟩
      split <;> rfl

end Frame

end Braces
