import Braces.Proofs.Inference.Voids
import Braces.Proofs.Resolution
import Braces.Proofs.Typing.Operators

/-!
# Void results that are used

The call of a function without a result is a statement, or what a function without a result returns.
Most places that take a value are checked for that: operands of arithmetic, subscripts, elements,
what loops go over and what is stored into lists. The others are those of `Unguarded`. A void result
is used in an accepted source exactly if one of them holds the call of a function without a result;
what variables and parameters hold need not be looked at.
-/

namespace Braces

/-- The expressions whose values an expression takes. -/
def Expr.operands : Expr → List Expr
  | .binary _ l r => [l, r]
  | .unary _ e | .len e => [e]
  | .list elements => elements
  | .index target position => [target, position]
  | .call _ args => args
  | .range start stop step => bounds start stop step
  | .int _ | .float _ | .str _ | .bool _ | .var _ => []

/-- The expressions whose values a statement takes itself. One that is a statement is not used, and
a returned one is handed on. -/
def Stmt.taken : Stmt → List Expr
  | .eval _ | .ret _ => []
  | s => s.operands

namespace Frame

/-- No void result is used as a value. -/
structure VoidUnused (f : Frame) (body : List Stmt) : Prop where
  taken : ∀ s ∈ Stmt.withinBlock body, ∀ e ∈ s.taken, f.typeOf e ≠ .void
  operands : ∀ e ∈ Stmt.nodes body, ∀ e' ∈ e.operands, f.typeOf e' ≠ .void
  returned : ∀ value, Stmt.ret (some value) ∈ Stmt.withinBlock body → f.typeOf value = .void →
    f.resultTy = .void

/-- Where a check keeps void results out. -/
structure Guarded (f : Frame) (body : List Stmt) : Prop where
  stored : ∀ target position value, .assignAt target position value ∈ Stmt.withinBlock body →
    ∀ e ∈ [target, position, value], f.typeOf e ≠ .void
  walked : ∀ name iterable block, .forLoop name iterable block ∈ Stmt.withinBlock body →
    f.typeOf iterable ≠ .void
  counted : ∀ name start stop step block,
    .forLoop name (.range start stop step) block ∈ Stmt.withinBlock body →
      ∀ e ∈ Expr.bounds start stop step, f.typeOf e ≠ .void
  calculated : ∀ op l r, .binary op l r ∈ Stmt.evaluatedNodes f.routine body →
    op.isComparison = false → op.isLogical = false → ∀ e ∈ [l, r], f.typeOf e ≠ .void
  signed : ∀ op e, .unary op e ∈ Stmt.evaluatedNodes f.routine body → op ≠ .not →
    f.typeOf e ≠ .void
  listed : ∀ es, .list es ∈ Stmt.evaluatedNodes f.routine body → ∀ e ∈ es, f.typeOf e ≠ .void
  indexed : ∀ target position, .index target position ∈ Stmt.evaluatedNodes f.routine body →
    ∀ e ∈ [target, position], f.typeOf e ≠ .void
  measured : ∀ e, .len e ∈ Stmt.evaluatedNodes f.routine body → f.typeOf e ≠ .void
  returned : ∀ value, Stmt.ret (some value) ∈ Stmt.withinBlock body → f.typeOf value = .void →
    f.resultTy = .void

end Frame

/-- The places of a body where no check keeps void results out. -/
inductive Stmt.Unguarded (routine : String) (body : List Stmt) : Expr → Prop
  | assigned {name value} : .assign name value ∈ withinBlock body → Unguarded routine body value
  | printed {args e} : .print args ∈ withinBlock body → e ∈ args → Unguarded routine body e
  | chosen {cond block orelse} : .ifElse cond block orelse ∈ withinBlock body →
      Unguarded routine body cond
  | repeated {cond block} : .whileLoop cond block ∈ withinBlock body → Unguarded routine body cond
  | compared {op l r e} : .binary op l r ∈ evaluatedNodes routine body →
      (op.isComparison || op.isLogical) = true → e ∈ [l, r] → Unguarded routine body e
  | negated {e} : .unary .not e ∈ evaluatedNodes routine body → Unguarded routine body e
  | passed {name args e} : .call name args ∈ evaluatedNodes routine body → e ∈ args →
      Unguarded routine body e
  | counted {start stop step e} : .range start stop step ∈ evaluatedNodes routine body →
      e ∈ Expr.bounds start stop step → Unguarded routine body e
  /-- What the entry routine is told to return is not looked at. -/
  | dropped {value e e'} : routine = entryName → .ret (some value) ∈ withinBlock body →
      e ∈ value.parts → e' ∈ e.operands → Unguarded routine body e'

/-! ## Guards -/

namespace Frame

variable {f : Frame} {inLoop : Bool} {st st' : Progress} {body : List Stmt} {cs : List Cpp.Stmt}

theorem ne_void_of_isCount {ty : Ty} (h : ty.isCount = true) : ty ≠ .void := by
  rintro rfl
  cases h

theorem ne_void_of_isIterable {ty : Ty} (h : ty.isIterable = true) : ty ≠ .void := by
  rintro rfl
  cases h

/-- Arithmetic is not defined on void. -/
theorem shape?_void (op : BinOp) (ty : Ty) (hcompares : op.isComparison = false)
    (hlogical : op.isLogical = false) :
    shape? op .void ty = none ∧ shape? op ty .void = none := by
  revert hcompares hlogical
  cases op <;> cases ty <;> decide

theorem ne_void_of_shape? {op : BinOp} {l r : Ty} {sh : Shape} (h : shape? op l r = some sh)
    (hcompares : op.isComparison = false) (hlogical : op.isLogical = false) :
    l ≠ .void ∧ r ≠ .void := by
  constructor
  · rintro rfl
    rw [(shape?_void op r hcompares hlogical).1] at h
    cases h
  · rintro rfl
    rw [(shape?_void op l hcompares hlogical).2] at h
    cases h

theorem isIterable_of_loopHead {st₁ : Progress} {name : String} {iterable : Expr}
    {assigned : List String} {head : LoopHead} {first : List Cpp.Stmt}
    (h : f.loopHead st name iterable assigned = .ok (head, first, st₁)) :
    (f.typeOf iterable).isIterable = true := by
  unfold loopHead at h
  split at h
  · rfl
  · rfl
  · unfold collectionHead at h
    dsimp only at h
    by_cases hit : (f.typeOf iterable).isIterable = true
    · exact hit
    · rw [if_neg hit] at h
      cases h

theorem ne_void_of_assignAt {target position value : Expr} {c : Cpp.Stmt}
    (h : f.assignAt target position value = .ok c) :
    ∀ e ∈ [target, position, value], f.typeOf e ≠ .void := by
  unfold assignAt at h
  dsimp only at h
  split at h
  · obtain ⟨_, hvalue, h⟩ := exists_of_bind_eq_ok h
    obtain ⟨_, hsubscript, -⟩ := exists_of_bind_eq_ok h
    obtain ⟨htarget, hposition⟩ := of_checkSubscript hsubscript
    have hvalue : (f.typeOf value).isCount = true := by
      unfold checkElement at hvalue
      split at hvalue
      · next hcount => exact hcount
      · cases hvalue
    intro e he
    simp only [List.mem_cons, List.not_mem_nil, or_false] at he
    rcases he with rfl | rfl | rfl
    · exact ne_void_of_isIterable htarget
    · exact ne_void_of_isCount hposition
    · exact ne_void_of_isCount hvalue
  · cases h

/-- A body that is emitted has no void result where there is a check. -/
theorem EmitsBlock.guarded (h : f.EmitsBlock inLoop st body cs st')
    (hknown : f.resultTy ≠ .unknown) (hentry : f.routine = entryName → f.resultTy = .void) :
    f.Guarded body where
  stored target position value hmem := by
    obtain ⟨_, _, _, _, hs⟩ := h.somewhere_of_within _ hmem
    cases hs with
    | assignAt hc => exact ne_void_of_assignAt hc
  walked name iterable block hmem := by
    obtain ⟨_, _, _, _, hs⟩ := h.somewhere_of_within _ hmem
    cases hs with
    | freshLoop hhead _ _ => exact ne_void_of_isIterable (isIterable_of_loopHead hhead)
    | loop hhead _ _ => exact ne_void_of_isIterable (isIterable_of_loopHead hhead)
  counted name start stop step block hmem e he :=
    ne_void_of_isCount (h.headRangesFit name start stop step block hmem e he)
  calculated op l r hmem hcompares hlogical := by
    obtain ⟨c, hc⟩ := h.exists_of_evaluatedNodes _ hmem
    cases hc with
    | binary hshape _ _ =>
      obtain ⟨hl, hr⟩ := ne_void_of_shape? hshape hcompares hlogical
      simpa using ⟨hl, hr⟩
  signed op e hmem hop := by
    obtain ⟨c, hc⟩ := h.exists_of_evaluatedNodes _ hmem
    cases hc with
    | not _ => exact absurd rfl hop
    | sign _ hnumeric _ =>
      intro hvoid
      rw [hvoid] at hnumeric
      cases hnumeric
  listed es hmem e he := by
    obtain ⟨c, hc⟩ := h.exists_of_evaluatedNodes _ hmem
    cases hc with
    | list hcheck _ => exact ne_void_of_isCount (isCount_of_checkElements hcheck e he)
  indexed target position hmem := by
    obtain ⟨c, hc⟩ := h.exists_of_evaluatedNodes _ hmem
    cases hc with
    | index hcheck _ _ =>
      obtain ⟨htarget, hposition⟩ := of_checkSubscript hcheck
      simpa using ⟨ne_void_of_isIterable htarget, ne_void_of_isCount hposition⟩
  measured e hmem := by
    obtain ⟨c, hc⟩ := h.exists_of_evaluatedNodes _ hmem
    cases hc with
    | len hiterable _ => exact ne_void_of_isIterable hiterable
  returned value hmem hvoid := by
    by_cases hr : f.routine = entryName
    · exact hentry hr
    · have haccepts := h.returnedFit hr value hmem
      rw [hvoid] at haccepts
      revert haccepts hknown
      cases f.resultTy <;> decide

end Frame

/-! ## Places -/

/-- What a step stores into a variable or a parameter, if it is the value of an expression. -/
def Step.taken? : Step → Option Expr
  | .bind _ (.value e) => some e
  | .pass _ _ arg => some arg
  | _ => none

namespace Expr

theorem mem_parts_of_operands {e e' : Expr} (h : e' ∈ e.operands) : e' ∈ e.parts := by
  have hself := mem_parts_self e'
  cases e with
  | binary op l r =>
    simp only [operands, List.mem_cons, List.not_mem_nil, or_false] at h
    rcases h with rfl | rfl <;> simp [parts, hself]
  | unary op e =>
    obtain rfl := List.mem_singleton.1 h
    exact List.mem_cons_of_mem _ hself
  | len e =>
    obtain rfl := List.mem_singleton.1 h
    exact List.mem_cons_of_mem _ hself
  | list es => exact List.mem_cons_of_mem _ (mem_partsOf.2 ⟨e', h, hself⟩)
  | index target position =>
    simp only [operands, List.mem_cons, List.not_mem_nil, or_false] at h
    rcases h with rfl | rfl <;> simp [parts, hself]
  | call name args => exact List.mem_cons_of_mem _ (mem_partsOf.2 ⟨e', h, hself⟩)
  | range start stop step =>
    simp only [operands, bounds, List.mem_cons, List.mem_append, Option.mem_toList] at h
    rcases h with rfl | rfl | rfl <;> simp [parts, partsOfOption, hself]
  | _ => cases h

/-- The arguments of an expression that is a call. -/
def passed : Expr → List Expr
  | .call _ args => args
  | _ => []

mutual

/-- The steps of an expression take nothing but arguments of its calls. -/
theorem taken_steps : ∀ e : Expr, e.steps.filterMap Step.taken? ⊆ e.parts.flatMap passed
  | .var _ | .int _ | .float _ | .str _ | .bool _ => List.nil_subset _
  | .binary _ l r => by
    simp only [steps, parts, passed, List.filterMap_append, List.flatMap_cons, List.flatMap_append,
      List.nil_append]
    exact append_subset_append (taken_steps l) (taken_steps r)
  | .unary _ e | .len e => by
    rw [steps, parts, List.flatMap_cons]
    exact taken_steps e
  | .list es => by
    rw [steps, parts, List.flatMap_cons]
    exact taken_stepsOf es
  | .index target position => by
    simp only [steps, parts, passed, List.filterMap_append, List.flatMap_cons, List.flatMap_append,
      List.nil_append]
    exact append_subset_append (taken_steps target) (taken_steps position)
  | .call name args => by
    rw [steps, parts, List.flatMap_cons]
    exact taken_argumentSteps name 0 args
  | .range start stop step => by
    simp only [steps, parts, passed, List.filterMap_append, List.flatMap_cons, List.flatMap_append,
      List.nil_append]
    exact append_subset_append (taken_steps start)
      (append_subset_append (taken_optionSteps stop) (taken_optionSteps step))

theorem taken_stepsOf : ∀ es : List Expr,
    (stepsOf es).filterMap Step.taken? ⊆ (partsOf es).flatMap passed
  | [] => List.nil_subset _
  | e :: es => by
    rw [stepsOf, partsOf, List.filterMap_append, List.flatMap_append]
    exact append_subset_append (taken_steps e) (taken_stepsOf es)

theorem taken_optionSteps : ∀ e : Option Expr,
    (optionSteps e).filterMap Step.taken? ⊆ (partsOfOption e).flatMap passed
  | none => List.nil_subset _
  | some e => taken_steps e

theorem taken_argumentSteps (name : String) : ∀ (index : Nat) (args : List Expr),
    (argumentSteps name index args).filterMap Step.taken? ⊆
      args ++ (partsOf args).flatMap passed
  | _, [] => List.nil_subset _
  | i, arg :: args => by
    have harg := taken_steps arg
    have hargs := taken_argumentSteps name (i + 1) args
    rw [argumentSteps, partsOf, List.filterMap_append, List.flatMap_append]
    simp only [List.filterMap_cons, Step.taken?]
    grind

end

end Expr

namespace Stmt

/-- The expressions that a statement stores into variables and parameters. -/
def stored (s : Stmt) : List Expr :=
  (match s with
    | .assign _ value => [value]
    | _ => []) ++ (Expr.partsOf s.operands).flatMap Expr.passed

mutual

theorem taken_steps (routine : String) : ∀ s : Stmt,
    (s.steps routine).filterMap Step.taken? ⊆ s.within.flatMap stored
  | .assign name value => by
    have hvalue := value.taken_steps
    simp only [steps, within, stored, operands, Expr.partsOf, List.filterMap_append,
      List.filterMap_cons, Step.taken?, List.flatMap_cons, List.flatMap_nil, List.append_nil]
    grind
  | .assignAt target position value => by
    simp only [steps, within, stored, operands, Expr.partsOf, List.filterMap_append,
      List.flatMap_cons, List.flatMap_nil, List.append_nil, List.nil_append, List.flatMap_append]
    exact append_subset_append target.taken_steps
      (append_subset_append position.taken_steps value.taken_steps)
  | .print args => by
    simp only [steps, within, stored, operands, List.flatMap_cons, List.flatMap_nil,
      List.append_nil, List.nil_append]
    exact Expr.taken_stepsOf args
  | .ifElse cond body orelse => by
    have hbody := taken_blockSteps routine body
    have horelse := taken_elseSteps routine orelse
    simp only [steps, within, stored, operands, Expr.partsOf, List.filterMap_append,
      List.filterMap_cons, Step.taken?, List.flatMap_cons, List.flatMap_append, List.append_nil,
      List.nil_append]
    exact append_subset_append cond.taken_steps (append_subset_append hbody horelse)
  | .whileLoop cond body => by
    have hbody := taken_blockSteps routine body
    simp only [steps, within, stored, operands, Expr.partsOf, List.filterMap_append,
      List.filterMap_cons, List.filterMap_nil, Step.taken?, List.flatMap_cons, List.append_nil,
      List.nil_append]
    exact append_subset_append cond.taken_steps hbody
  | .forLoop name iterable body => by
    have hbody := taken_blockSteps routine body
    simp only [steps, within, stored, operands, Expr.partsOf, List.filterMap_append,
      List.filterMap_cons, List.filterMap_nil, Step.taken?, List.flatMap_cons, List.append_nil,
      List.nil_append]
    exact append_subset_append iterable.taken_steps hbody
  | .ret (some e) => by
    have hsteps : (steps routine (.ret (some e))).filterMap Step.taken? =
        e.steps.filterMap Step.taken? := by
      rw [steps]
      split <;> simp [Step.taken?, List.filterMap_cons]
    rw [hsteps]
    simp only [within, stored, operands, Option.toList_some, Expr.partsOf, List.flatMap_cons,
      List.flatMap_nil, List.append_nil, List.nil_append]
    exact e.taken_steps
  | .eval e => by
    simp only [steps, within, stored, operands, Expr.partsOf, List.flatMap_cons, List.flatMap_nil,
      List.append_nil, List.nil_append]
    exact e.taken_steps
  | .ret none | .funcDef _ _ _ | .pass | .break_ | .continue_ => List.nil_subset _

/-- The walk of a body takes nothing but assigned values and arguments. -/
theorem taken_blockSteps (routine : String) : ∀ body : List Stmt,
    (blockSteps routine body).filterMap Step.taken? ⊆ (withinBlock body).flatMap stored
  | [] => List.nil_subset _
  | s :: rest => by
    rw [blockSteps, withinBlock, List.filterMap_append, List.flatMap_append]
    exact append_subset_append (taken_steps routine s) (taken_blockSteps routine rest)

theorem taken_elseSteps (routine : String) : ∀ orelse : Option (List Stmt),
    (elseSteps routine orelse).filterMap Step.taken? ⊆ (withinElse orelse).flatMap stored
  | none => List.nil_subset _
  | some body => by
    have hbody := taken_blockSteps routine body
    simp only [elseSteps, withinElse, List.filterMap_append, List.filterMap_cons,
      List.filterMap_nil, Step.taken?, List.append_nil]
    exact hbody

end

end Stmt

namespace Stmt

variable {routine : String} {body : List Stmt} {e : Expr}

theorem mem_nodes_of_operands {s : Stmt} (hs : s ∈ withinBlock body) (he : e ∈ s.operands) :
    e ∈ nodes body :=
  mem_nodes.2 ⟨s, hs, Expr.mem_partsOf.2 ⟨e, he, Expr.mem_parts_self e⟩⟩

theorem mem_nodes_trans {e' : Expr} (he : e ∈ nodes body) (he' : e' ∈ e.parts) :
    e' ∈ nodes body := by
  obtain ⟨s, hs, hpart⟩ := mem_nodes.1 he
  exact mem_nodes.2 ⟨s, hs, Expr.partsOf_trans hpart he'⟩

theorem mem_nodes_of_evaluated (h : e ∈ evaluatedNodes routine body) : e ∈ nodes body := by
  obtain ⟨s, hs, e', he', hpart⟩ := mem_evaluatedNodes.1 h
  refine mem_nodes_trans ?_ hpart
  by_cases hown : e' ∈ s.operands
  · exact mem_nodes_of_operands hs hown
  cases s with
  | forLoop name iterable block =>
    cases iterable with
    | range start stop step =>
      exact mem_nodes_trans (mem_nodes_of_operands hs List.mem_cons_self)
        (Expr.mem_parts_of_operands he')
    | _ => exact absurd he' hown
  | ret value =>
    rw [evaluated] at he'
    split at he'
    · cases he'
    · exact absurd he' hown
  | _ => exact absurd he' hown

/-- An expression of a body is evaluated, or the range that a loop counts over, or within what the
entry routine is told to return. -/
theorem mem_nodes_cases (routine : String) (h : e ∈ nodes body) :
    e ∈ evaluatedNodes routine body ∨
      (∃ name start stop step block,
        .forLoop name (.range start stop step) block ∈ withinBlock body ∧
          e = .range start stop step) ∨
      (routine = entryName ∧ ∃ value, .ret (some value) ∈ withinBlock body ∧ e ∈ value.parts) := by
  obtain ⟨s, hs, hparts⟩ := mem_nodes.1 h
  obtain ⟨e', he', hpart⟩ := Expr.mem_partsOf.1 hparts
  rcases evaluated_cases routine he' hpart with ⟨e₁, he₁, hpart⟩ | hrange | ⟨hr, rfl⟩
  · exact .inl (mem_evaluatedNodes.2 ⟨s, hs, e₁, he₁, hpart⟩)
  · obtain ⟨name, start, stop, step, block, rfl, rfl⟩ := hrange
    exact .inr (.inl ⟨name, start, stop, step, block, hs, rfl⟩)
  · exact .inr (.inr ⟨hr, e', hs, hpart⟩)

/-- What is stored into variables and parameters is not guarded. -/
theorem unguarded_of_stored (h : e ∈ (withinBlock body).flatMap stored) :
    Unguarded routine body e := by
  obtain ⟨s, hs, hstored⟩ := List.mem_flatMap.1 h
  rcases List.mem_append.1 hstored with hvalue | hpassed
  · cases s with
    | assign name value =>
      obtain rfl := List.mem_singleton.1 hvalue
      exact .assigned hs
    | _ => cases hvalue
  · obtain ⟨call, hcall, he⟩ := List.mem_flatMap.1 hpassed
    have hnode : call ∈ nodes body := mem_nodes.2 ⟨s, hs, hcall⟩
    cases call with
    | call name args =>
      obtain heval | ⟨_, _, _, _, _, -, heq⟩ | ⟨hr, value, hvalue, hpart⟩ :=
        mem_nodes_cases routine hnode
      · exact .passed heval he
      · cases heq
      · exact .dropped hr hvalue hpart he
    | _ => cases he

/-- What stands in such a place is taken by a statement or by an expression. -/
theorem Unguarded.taken_or_operand (h : Unguarded routine body e) :
    (∃ s ∈ withinBlock body, e ∈ s.taken) ∨ ∃ e' ∈ nodes body, e ∈ e'.operands := by
  cases h with
  | assigned hs => exact .inl ⟨_, hs, List.mem_cons_self⟩
  | printed hs harg => exact .inl ⟨_, hs, harg⟩
  | chosen hs => exact .inl ⟨_, hs, List.mem_cons_self⟩
  | repeated hs => exact .inl ⟨_, hs, List.mem_cons_self⟩
  | compared heval _ hmem => exact .inr ⟨_, mem_nodes_of_evaluated heval, hmem⟩
  | negated heval => exact .inr ⟨_, mem_nodes_of_evaluated heval, List.mem_cons_self⟩
  | passed heval harg => exact .inr ⟨_, mem_nodes_of_evaluated heval, harg⟩
  | counted heval hmem => exact .inr ⟨_, mem_nodes_of_evaluated heval, hmem⟩
  | dropped _ hs hpart hmem =>
    have hvalue := mem_nodes_of_operands hs List.mem_cons_self
    exact .inr ⟨_, mem_nodes_trans hvalue hpart, hmem⟩

theorem Unguarded.mem_nodes (h : Unguarded routine body e) : e ∈ nodes body := by
  obtain ⟨s, hs, htaken⟩ | ⟨e', he', hmem⟩ := h.taken_or_operand
  · refine mem_nodes_of_operands hs ?_
    cases s with
    | eval | ret => cases htaken
    | _ => exact htaken
  · exact mem_nodes_trans he' (Expr.mem_parts_of_operands hmem)

end Stmt

/-! ## Programs -/

namespace Frame

variable {f : Frame} {body : List Stmt} {e e' : Expr}

/-- What a statement takes is guarded or not. -/
theorem Guarded.taken (h : f.Guarded body) {s : Stmt} (hs : s ∈ Stmt.withinBlock body)
    (he : e ∈ s.taken) : f.typeOf e ≠ .void ∨ Stmt.Unguarded f.routine body e := by
  cases s with
  | assign name value =>
    obtain rfl := List.mem_singleton.1 he
    exact .inr (.assigned hs)
  | assignAt target position value => exact .inl (h.stored target position value hs e he)
  | print args => exact .inr (.printed hs he)
  | ifElse cond block orelse =>
    obtain rfl := List.mem_singleton.1 he
    exact .inr (.chosen hs)
  | whileLoop cond block =>
    obtain rfl := List.mem_singleton.1 he
    exact .inr (.repeated hs)
  | forLoop name iterable block =>
    obtain rfl := List.mem_singleton.1 he
    exact .inl (h.walked name e block hs)
  | _ => cases he

/-- What an expression takes is guarded or not. -/
theorem Guarded.operands (h : f.Guarded body) (he : e ∈ Stmt.nodes body) (he' : e' ∈ e.operands) :
    f.typeOf e' ≠ .void ∨ Stmt.Unguarded f.routine body e' := by
  obtain heval | ⟨name, start, stop, step, block, hs, rfl⟩ | ⟨hr, value, hvalue, hpart⟩ :=
    Stmt.mem_nodes_cases f.routine he
  · cases e with
    | binary op l r =>
      by_cases hop : (op.isComparison || op.isLogical) = true
      · exact .inr (.compared heval hop he')
      · rw [Bool.or_eq_true, not_or, Bool.not_eq_true, Bool.not_eq_true] at hop
        exact .inl (h.calculated op l r heval hop.1 hop.2 e' he')
    | unary op e =>
      obtain rfl := List.mem_singleton.1 he'
      by_cases hop : op = .not
      · subst hop
        exact .inr (.negated heval)
      · exact .inl (h.signed op e' heval hop)
    | list es => exact .inl (h.listed es heval e' he')
    | index target position => exact .inl (h.indexed target position heval e' he')
    | call name args => exact .inr (.passed heval he')
    | len e =>
      obtain rfl := List.mem_singleton.1 he'
      exact .inl (h.measured e' heval)
    | range start stop step => exact .inr (.counted heval he')
    | _ => cases he'
  · exact .inl (h.counted name start stop step block hs e' he')
  · exact .inr (.dropped hr hvalue hpart he')

/-- Where no void result is used, none is in an unguarded place. -/
theorem VoidUnused.typeOf_ne_void {routine : String} (h : f.VoidUnused body)
    (he : Stmt.Unguarded routine body e) : f.typeOf e ≠ .void := by
  obtain ⟨s, hs, htaken⟩ | ⟨e', he', hmem⟩ := he.taken_or_operand
  · exact h.taken s hs e htaken
  · exact h.operands e' he' e hmem

end Frame

namespace Program

variable {p : Program} {t : Table} {u : Cpp.Unit} {r : String} {body : List Stmt} {e : Expr}

/-- Results are known in a finished table, and the entry routine has none. -/
theorem resultTy_of_infer (h : p.infer = .ok t) (r : String) :
    Frame.resultTy ⟨t, r⟩ ≠ .unknown ∧ (r = entryName → Frame.resultTy ⟨t, r⟩ = .void) := by
  have hslot : Frame.resultTy ⟨t, r⟩ = (t.slotTy? (.result r)).getD .void := rfl
  refine ⟨?_, ?_⟩
  · rw [hslot, slotTy?_of_infer h]
    cases p.marked.slotTy? (.result r) with
    | none =>
      intro hnone
      cases hnone
    | some old =>
      simp only [Option.map_some, Option.getD_some, Ty.isKnown, ne_eq, decide_eq_true_eq]
      split
      · next hknown => exact hknown
      · decide
  · rintro rfl
    cases hs : t.signature? entryName with
    | none => rw [Frame.resultTy, hs]; rfl
    | some s =>
      obtain ⟨fn, hfn, hname, -⟩ := exists_of_signature? h hs
      have hne : fn.name ≠ entryName := by simpa [routines] using (List.mem_filter.1 hfn).2
      exact absurd hname hne

theorem guarded_of_walk (h : p.infer = .ok t) (hemit : p.emit t = .ok u)
    (hm : (r, body) ∈ p.walks) : Frame.Guarded ⟨t, r⟩ body := by
  obtain ⟨st, cs, st', hblock⟩ := exists_emitsBlock hemit hm
  obtain ⟨hknown, hentry⟩ := resultTy_of_infer h r
  exact hblock.guarded hknown hentry

section
variable (hguard : Frame.Guarded ⟨t, r⟩ body)
  (hcalls : ∀ e, Stmt.Unguarded r body e → t.isVoidCall e = false)
include hguard hcalls

/-- Signs hide no call of a function without a result. -/
theorem isVoidCall_unsigned :
    ∀ {e : Expr}, e ∈ Stmt.nodes body → t.isVoidCall e = false → t.isVoidCall e.unsigned = false
  | .unary op e, hmem, hcall => by
    rw [Expr.unsigned]
    split
    · exact hcall
    · refine isVoidCall_unsigned
        (Stmt.mem_nodes_trans hmem (Expr.mem_parts_of_operands List.mem_cons_self)) ?_
      rcases hguard.operands hmem List.mem_cons_self with hne | hplace
      · exact Bool.eq_false_iff.2 fun hvoid => hne (Table.typeOf_of_isVoidCall hvoid)
      · exact hcalls e hplace
  | .int _, _, h | .float _, _, h | .str _, _, h | .bool _, _, h | .len _, _, h | .list _, _, h
  | .range _ _ _, _, h | .var _, _, h | .index _ _, _, h | .binary _ _ _, _, h
  | .call _ _, _, h => h

/-- Then stores take nothing from functions without a result. -/
theorem filled_of_calls {st : Step} (hst : st ∈ Stmt.blockSteps r body) {s : Store}
    (hs : st.store? r = some s) : s.Filled t := by
  intro e horigin hcell
  have htaken : st.taken? = some e := by
    cases st with
    | bind name origin =>
      cases hs
      rw [show origin = .value e from horigin]
      rfl
    | pass function i arg =>
      cases hs
      cases horigin
      rfl
    | give function value =>
      cases hs
      exact absurd rfl (hcell function)
    | touch | enter | exit => cases hs
  have hstored := Stmt.taken_blockSteps r body (List.mem_filterMap.2 ⟨st, hst, htaken⟩)
  have hplace : Stmt.Unguarded r body e := Stmt.unguarded_of_stored hstored
  exact isVoidCall_unsigned hguard hcalls hplace.mem_nodes (hcalls e hplace)

end

/-- In an accepted source most places never hold a void result. No void result is used in any
routine exactly if no call of a function without a result stands in one of the other places. -/
theorem voidUnused_iff {source text : String} (h : compile source = .ok text) :
    ∃ p t, readSource source = .ok p ∧ p.infer = .ok t ∧
      (∀ w ∈ p.walks, Frame.Guarded ⟨t, w.1⟩ w.2) ∧
      ((∀ w ∈ p.walks, Frame.VoidUnused ⟨t, w.1⟩ w.2) ↔
        ∀ w ∈ p.walks, ∀ e, Stmt.Unguarded w.1 w.2 e → t.isVoidCall e = false) := by
  obtain ⟨p, t, u, hp, ht, hemit, -⟩ := exists_of_compile h
  have hguard : ∀ w ∈ p.walks, Frame.Guarded ⟨t, w.1⟩ w.2 := fun w hw => guarded_of_walk ht hemit hw
  refine ⟨p, t, hp, ht, hguard, ?_, ?_⟩
  · intro hunused w hw e hplace
    refine Bool.eq_false_iff.2 fun hvoid => ?_
    exact (hunused w hw).typeOf_ne_void hplace (Table.typeOf_of_isVoidCall hvoid)
  · intro hcalls
    have hfilled : t.Filled p.walks := fun w hw st hst s hs =>
      filled_of_calls (hguard w hw) (hcalls w hw) hst hs
    intro w hw
    have hplaces : ∀ e, Stmt.Unguarded w.1 w.2 e → Frame.typeOf ⟨t, w.1⟩ e ≠ .void := by
      intro e hplace hvoid
      have hcall := Table.isVoidCall_of_typeOf (varTy_ne_void ht hfilled hw) hvoid
      rw [isVoidCall_unsigned (hguard w hw) (hcalls w hw) hplace.mem_nodes (hcalls w hw e hplace)]
        at hcall
      cases hcall
    refine ⟨fun s hs e he => ?_, fun e he e' he' => ?_, (hguard w hw).returned⟩
    · exact ((hguard w hw).taken hs he).elim id (hplaces e)
    · exact ((hguard w hw).operands he he').elim id (hplaces e')

/-- A function without a result whose calls are assigned, compared, negated and passed on. -/
def voidsUsed : String :=
  "def f():\n pass\ndef g(a):\n print(a)\nx = f()\ng(x)\nprint(not f(), f() == x)\n"

theorem voidUnused_iff_voidsUsed :
    ∃ p t, readSource voidsUsed = .ok p ∧ p.infer = .ok t ∧
      (∀ w ∈ p.walks, Frame.Guarded ⟨t, w.1⟩ w.2) ∧
      ¬∀ w ∈ p.walks, Frame.VoidUnused ⟨t, w.1⟩ w.2 := by
  have hok : (compile voidsUsed).toBool = true := by decide +kernel
  have hcall : (readSource voidsUsed).toOption.bind (fun p => p.infer.toOption.map fun t =>
      (Stmt.withinBlock p.entryStatements).any fun
        | .assign _ value => t.isVoidCall value
        | _ => false) = some true := by decide +kernel
  obtain ⟨text, h⟩ := exists_of_toBool hok
  obtain ⟨p, t, hp, ht, hguard, hiff⟩ := voidUnused_iff h
  refine ⟨p, t, hp, ht, hguard, fun hunused => ?_⟩
  simp only [hp, ht, Except.toOption, Option.bind_some, Option.map_some, Option.some.injEq,
    List.any_eq_true] at hcall
  obtain ⟨s, hs, hcall⟩ := hcall
  split at hcall
  · next name value =>
    have hentry : (entryName, p.entryStatements) ∈ p.walks :=
      List.mem_append_right _ List.mem_cons_self
    rw [hiff.1 hunused _ hentry value (.assigned hs)] at hcall
    cases hcall
  · cases hcall

end Program

end Braces
