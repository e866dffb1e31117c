import Braces.Proofs.Emission.Heads
import Braces.Proofs.Syntax.Bodies

/-!
# What an emitted body is made of

If a body is emitted, so is every statement in it, at every depth, and every expression that these
evaluate, with all its parts. A range that a loop counts over is not a value: only its bounds and
its step are evaluated. The entry routine does not evaluate what it is told to return.
-/

namespace Braces

/-- The expressions within a range. -/
def Expr.bounds (start : Expr) (stop step : Option Expr) : List Expr :=
  start :: (stop.toList ++ step.toList)

/-- The expressions that a statement evaluates itself, in a routine. -/
def Stmt.evaluated (routine : String) : Stmt → List Expr
  | .forLoop _ (.range start stop step) _ => Expr.bounds start stop step
  | .ret value => if routine = entryName then [] else value.toList
  | s => s.operands

/-- All expressions that a body evaluates, with those within them. -/
def Stmt.evaluatedNodes (routine : String) (body : List Stmt) : List Expr :=
  (Stmt.withinBlock body).flatMap fun s => Expr.partsOf (s.evaluated routine)

theorem Stmt.mem_evaluatedNodes {routine : String} {body : List Stmt} {e : Expr} :
    e ∈ evaluatedNodes routine body ↔
      ∃ s ∈ withinBlock body, ∃ e' ∈ s.evaluated routine, e ∈ e'.parts := by
  simp [evaluatedNodes, List.mem_flatMap, Expr.mem_partsOf]

/-- A part of an operand is evaluated, or it is the range that a loop counts over, or the entry
routine is told to return it. -/
theorem Stmt.evaluated_cases (routine : String) {s : Stmt} {e e' : Expr} (he : e ∈ s.operands)
    (he' : e' ∈ e.parts) :
    (∃ e₁ ∈ s.evaluated routine, e' ∈ e₁.parts) ∨
      (∃ name start stop step block, s = .forLoop name (.range start stop step) block ∧
        e' = .range start stop step) ∨
      (routine = entryName ∧ s = .ret (some e)) := by
  by_cases heval : e ∈ s.evaluated routine
  · exact .inl ⟨e, heval, he'⟩
  cases s with
  | forLoop name iterable block =>
    cases iterable with
    | range start stop step =>
      obtain rfl := List.mem_singleton.1 he
      rcases List.mem_cons.1 he' with rfl | he'
      · exact .inr (.inl ⟨name, start, stop, step, block, rfl, rfl⟩)
      · refine .inl (show ∃ b ∈ Expr.bounds start stop step, e' ∈ b.parts from ?_)
        cases stop <;> cases step <;> simpa [Expr.bounds, Expr.partsOfOption] using he'
    | _ => exact absurd he heval
  | ret value =>
    by_cases hr : routine = entryName
    · obtain rfl : value = some e := by simpa [operands] using he
      exact .inr (.inr ⟨hr, rfl⟩)
    · exact absurd (by simpa [evaluated, operands, hr] using he) heval
  | _ => exact absurd he heval

namespace Frame

variable {f : Frame}

/-! ## Expressions -/

theorem length_of_calleeParams {name : String} {given : Nat} {ps : List Param}
    (h : f.calleeParams name given = .ok ps) :
    ∃ s, f.table.signature? name = some s ∧ s.params = ps ∧ ps.length = given := by
  unfold calleeParams at h
  split at h
  · cases h
  · next s hs =>
    split at h
    · next hlen =>
      cases h
      exact ⟨s, hs, rfl, hlen⟩
    · cases h

/-- The arguments of a call are emitted as they are, or for the parameters of a routine. -/
theorem Emits.args_of_call {name : String} {args : List Expr} {c : Cpp.Expr}
    (h : f.Emits (.call name args) c) : (∃ cs, f.EmitsAll args cs) ∨
      ∃ ps cs, args.length ≤ ps.length ∧ f.EmitsArgs name ps args cs := by
  cases h with
  | emptyText => exact .inl ⟨[], .nil⟩
  | text harg => exact .inl ⟨_, .cons harg .nil⟩
  | call _ hps hargs =>
    obtain ⟨-, -, -, hlen⟩ := length_of_calleeParams hps
    exact .inr ⟨_, _, Nat.le_of_eq hlen.symm, hargs⟩

mutual

/-- All parts of an expression are emitted with it. -/
theorem Emits.exists_of_parts : ∀ {e : Expr} {c : Cpp.Expr}, f.Emits e c →
    ∀ e' ∈ e.parts, ∃ c', f.Emits e' c'
  | .int _, c, h | .float _, c, h | .str _, c, h | .bool _, c, h | .var _, c, h => by
    simp only [Expr.parts, List.mem_singleton, forall_eq]
    exact ⟨c, h⟩
  | .binary op l r, c, h => by
    simp only [Expr.parts, List.mem_cons, List.mem_append]
    rintro e' (rfl | he' | he')
    · exact ⟨c, h⟩
    · cases h with
      | binary _ hl _ => exact hl.exists_of_parts e' he'
    · cases h with
      | binary _ _ hr => exact hr.exists_of_parts e' he'
  | .unary op e, c, h => by
    simp only [Expr.parts, List.mem_cons]
    rintro e' (rfl | he')
    · exact ⟨c, h⟩
    · cases h with
      | not he => exact he.exists_of_parts e' he'
      | sign _ _ he => exact he.exists_of_parts e' he'
  | .list es, c, h => by
    simp only [Expr.parts, List.mem_cons]
    rintro e' (rfl | he')
    · exact ⟨c, h⟩
    · cases h with
      | list _ hes => exact hes.exists_of_parts e' he'
  | .index target position, c, h => by
    simp only [Expr.parts, List.mem_cons, List.mem_append]
    rintro e' (rfl | he' | he')
    · exact ⟨c, h⟩
    · cases h with
      | index _ ht _ => exact ht.exists_of_parts e' he'
    · cases h with
      | index _ _ hi => exact hi.exists_of_parts e' he'
  | .call name args, c, h => by
    simp only [Expr.parts, List.mem_cons]
    rintro e' (rfl | he')
    · exact ⟨c, h⟩
    · obtain ⟨cs, hargs⟩ | ⟨ps, cs, hlen, hargs⟩ := h.args_of_call
      · exact hargs.exists_of_parts e' he'
      · exact hargs.exists_of_parts hlen e' he'
  | .len e, c, h => by
    simp only [Expr.parts, List.mem_cons]
    rintro e' (rfl | he')
    · exact ⟨c, h⟩
    · cases h with
      | len _ he => exact he.exists_of_parts e' he'
  | .range start stop step, c, h => by
    simp only [Expr.parts, List.mem_cons, List.mem_append]
    rintro e' (rfl | he' | he' | he')
    · exact ⟨c, h⟩
    · cases h with
      | range hstart _ _ => exact hstart.exists_of_parts e' he'
    · cases h with
      | range _ hstop _ => exact hstop.exists_of_parts e' he'
    · cases h with
      | range _ _ hstep => exact hstep.exists_of_parts e' he'

theorem EmitsAll.exists_of_parts : ∀ {es : List Expr} {cs : List Cpp.Expr}, f.EmitsAll es cs →
    ∀ e' ∈ Expr.partsOf es, ∃ c', f.Emits e' c'
  | [], _, _ => by simp [Expr.partsOf]
  | e :: es, _, .cons he hes => by
    simp only [Expr.partsOf, List.mem_append]
    rintro e' (he' | he')
    · exact he.exists_of_parts e' he'
    · exact hes.exists_of_parts e' he'

theorem EmitsOption.exists_of_parts : ∀ {e : Option Expr} {c : Option Cpp.Expr},
    f.EmitsOption e c → ∀ e' ∈ Expr.partsOfOption e, ∃ c', f.Emits e' c'
  | none, _, _ => by simp [Expr.partsOfOption]
  | some e, _, .present he => he.exists_of_parts

theorem EmitsArgs.exists_of_parts : ∀ {args : List Expr} {name : String} {ps : List Param}
    {cs : List Cpp.Expr}, f.EmitsArgs name ps args cs → args.length ≤ ps.length →
    ∀ e' ∈ Expr.partsOf args, ∃ c', f.Emits e' c'
  | [], _, _, _, _, _ => by simp [Expr.partsOf]
  | _ :: _, _, [], _, _, hlen => by simp at hlen
  | arg :: args, _, p :: ps, _, .next _ harg hargs, hlen => by
    simp only [Expr.partsOf, List.mem_append]
    rintro e' (he' | he')
    · exact harg.exists_of_parts e' he'
    · exact hargs.exists_of_parts (by simpa using hlen) e' he'

end

/-! ## Statements -/

theorem EmitsElse.exists_block {inLoop : Bool} {st st' : Progress} {body : List Stmt}
    {ce : Cpp.Else} (h : f.EmitsElse inLoop st (some body) ce st') :
    ∃ cs, f.EmitsBlock inLoop st body cs st' := by
  cases h with
  | elseIf hc hb he => exact ⟨_, .cons (.ifElse hc hb he) .nil⟩
  | block hb => exact ⟨_, hb⟩

/-- A statement is emitted, from wherever its routine has come to. -/
def EmitsSomewhere (f : Frame) (s : Stmt) : Prop :=
  ∃ inLoop st cs st', f.EmitsStmt inLoop st s cs st'

mutual

theorem EmitsStmt.somewhere_of_within : ∀ {s : Stmt} {inLoop : Bool} {st st' : Progress}
    {cs : List Cpp.Stmt}, f.EmitsStmt inLoop st s cs st' → ∀ s' ∈ s.within, f.EmitsSomewhere s'
  | .ifElse cond body orelse, _, _, _, _, h => by
    simp only [Stmt.within, List.mem_cons, List.mem_append]
    rintro s' (rfl | hs' | hs')
    · exact ⟨_, _, _, _, h⟩
    · cases h with
      | ifElse _ hb _ => exact hb.somewhere_of_within s' hs'
    · cases h with
      | ifElse _ _ he => exact he.somewhere_of_within s' hs'
  | .whileLoop cond body, _, _, _, _, h => by
    simp only [Stmt.within, List.mem_cons]
    rintro s' (rfl | hs')
    · exact ⟨_, _, _, _, h⟩
    · cases h with
      | whileLoop _ hb => exact hb.somewhere_of_within s' hs'
  | .forLoop name iterable body, _, _, _, _, h => by
    simp only [Stmt.within, List.mem_cons]
    rintro s' (rfl | hs')
    · exact ⟨_, _, _, _, h⟩
    · cases h with
      | freshLoop _ _ hb => exact hb.somewhere_of_within s' hs'
      | loop _ _ hb => exact hb.somewhere_of_within s' hs'
  | .assign _ _, _, _, _, _, h | .assignAt _ _ _, _, _, _, _, h | .print _, _, _, _, _, h
  | .funcDef _ _ _, _, _, _, _, h | .ret _, _, _, _, _, h | .eval _, _, _, _, _, h
  | .pass, _, _, _, _, h | .break_, _, _, _, _, h | .continue_, _, _, _, _, h => by
    simp only [Stmt.within, List.mem_singleton, forall_eq]
    exact ⟨_, _, _, _, h⟩

theorem EmitsBlock.somewhere_of_within : ∀ {body : List Stmt} {inLoop : Bool} {st st' : Progress}
    {cs : List Cpp.Stmt}, f.EmitsBlock inLoop st body cs st' →
    ∀ s' ∈ Stmt.withinBlock body, f.EmitsSomewhere s'
  | [], _, _, _, _, _ => by simp [Stmt.withinBlock]
  | s :: rest, _, _, _, _, .cons hs hrest => by
    simp only [Stmt.withinBlock, List.mem_append]
    rintro s' (hs' | hs')
    · exact hs.somewhere_of_within s' hs'
    · exact hrest.somewhere_of_within s' hs'

theorem EmitsElse.somewhere_of_within : ∀ {orelse : Option (List Stmt)} {inLoop : Bool}
    {st st' : Progress} {ce : Cpp.Else}, f.EmitsElse inLoop st orelse ce st' →
    ∀ s' ∈ Stmt.withinElse orelse, f.EmitsSomewhere s'
  | none, _, _, _, _, _ => by simp [Stmt.withinElse]
  | some body, _, _, _, _, h => by
    obtain ⟨cs, hb⟩ := h.exists_block
    exact hb.somewhere_of_within

end

/-! ## Evaluated expressions -/

theorem assignAt_cases {target position value : Expr} {c : Cpp.Stmt}
    (h : f.assignAt target position value = .ok c) :
    ∃ ct ci cv, f.expr target = .ok ct ∧ f.expr position = .ok ci ∧ f.expr value = .ok cv ∧
      c = .store (element target ct ci) cv := by
  unfold assignAt at h
  dsimp only at h
  split at h
  · obtain ⟨_, -, h⟩ := exists_of_bind_eq_ok h
    obtain ⟨_, -, h⟩ := exists_of_bind_eq_ok h
    obtain ⟨ct, ht, h⟩ := exists_of_bind_eq_ok h
    obtain ⟨ci, hi, h⟩ := exists_of_bind_eq_ok h
    obtain ⟨cv, hv, h⟩ := exists_of_bind_eq_ok h
    cases h
    exact ⟨ct, ci, cv, ht, hi, hv, rfl⟩
  · cases h

/-- The entry routine returns zero, and other routines what they are told to. -/
theorem ret_cases {value : Option Expr} {c : Cpp.Stmt} (h : f.ret value = .ok c) :
    (f.routine = entryName ∧ c = .ret (some (.int 0))) ∨
      (f.routine ≠ entryName ∧
        ((∃ e ce, value = some e ∧ f.expr e = .ok ce ∧ c = .ret (some ce)) ∨
          value = none ∧ (c = .ret none ∨ c = .retDefault))) := by
  unfold ret at h
  split at h
  · next hentry =>
    cases h
    exact .inl ⟨hentry, rfl⟩
  · next hentry =>
    refine .inr ⟨hentry, ?_⟩
    dsimp only at h
    split at h
    · next e =>
      obtain ⟨_, -, h⟩ := exists_of_bind_eq_ok h
      obtain ⟨ce, hce, h⟩ := exists_of_bind_eq_ok h
      cases h
      exact .inl ⟨e, ce, rfl, hce, rfl⟩
    · refine .inr ⟨rfl, ?_⟩
      cases h
      split
      · exact .inl rfl
      · exact .inr rfl

theorem exists_emits_of_initial {ty : Cpp.DeclType} {value : Expr} {c : Cpp.Expr}
    (h : f.initial ty value = .ok c) : ∃ c', f.Emits value c' := by
  unfold initial at h
  split at h
  · split at h
    · obtain ⟨_, hcheck, h⟩ := exists_of_bind_eq_ok h
      obtain ⟨cs, hcs, -⟩ := exists_of_bind_eq_ok h
      exact ⟨_, .list hcheck (emits_of_exprs hcs)⟩
    · exact ⟨c, emits_of_expr h⟩
  · exact ⟨c, emits_of_expr h⟩

theorem EmitsAll.exists_of_mem {es : List Expr} {cs : List Cpp.Expr} (h : f.EmitsAll es cs) :
    ∀ e ∈ es, ∃ c, f.Emits e c := by
  intro e he
  exact h.exists_of_parts e (Expr.mem_partsOf.2 ⟨e, he, Expr.mem_parts_self e⟩)

theorem exists_emits_of_option {e? : Option Expr} {c? : Option Cpp.Expr}
    (h : f.option e? = .ok c?) : ∀ e ∈ e?.toList, ∃ c, f.Emits e c := by
  intro e he
  cases emits_of_option h with
  | absent => cases he
  | present hc =>
    obtain rfl := List.mem_singleton.1 he
    exact ⟨_, hc⟩

/-- The bounds and the step of a counting loop are emitted, or the sequence that it walks. -/
theorem exists_emits_of_loopHead {st st₁ : Progress} {name : String} {iterable : Expr}
    {assigned : List String} {head : LoopHead} {first : List Cpp.Stmt}
    (h : f.loopHead st name iterable assigned = .ok (head, first, st₁)) (routine : String)
    (body : List Stmt) :
    ∀ e ∈ (Stmt.forLoop name iterable body).evaluated routine, ∃ c, f.Emits e c := by
  unfold loopHead at h
  split at h
  · next start stop step =>
    obtain ⟨cstart, cstop, cstep, hstart, hstop, hstep, -⟩ := rangeHead_cases h
    intro e he
    simp only [Stmt.evaluated, Expr.bounds, Option.toList_some, List.mem_cons,
      List.mem_append, List.not_mem_nil, or_false] at he
    rcases he with rfl | rfl | he
    · exact ⟨_, emits_of_expr hstart⟩
    · exact ⟨_, emits_of_expr hstop⟩
    · exact exists_emits_of_option hstep e he
  · next stop step =>
    obtain ⟨cstart, cstop, cstep, -, hstop, hstep, -⟩ := rangeHead_cases h
    intro e he
    simp only [Stmt.evaluated, Expr.bounds, Option.toList_none, List.nil_append,
      List.mem_cons] at he
    rcases he with rfl | he
    · exact ⟨_, emits_of_expr hstop⟩
    · exact exists_emits_of_option hstep e he
  · next hrange hrange' =>
    obtain ⟨c, hc, -⟩ := collectionHead_cases h
    have heval : (Stmt.forLoop name iterable body).evaluated routine = [iterable] := by
      cases iterable with
      | range start stop step =>
        cases stop with
        | none => exact absurd rfl (hrange' start step)
        | some stop => exact absurd rfl (hrange start stop step)
      | _ => rfl
    rw [heval]
    simp only [List.mem_singleton, forall_eq]
    exact ⟨c, emits_of_expr hc⟩

/-- A statement that is emitted evaluates only what is emitted. -/
theorem EmitsSomewhere.exists_of_evaluated {s : Stmt} (h : f.EmitsSomewhere s) :
    ∀ e ∈ s.evaluated f.routine, ∃ c, f.Emits e c := by
  obtain ⟨inLoop, st, cs, st', h⟩ := h
  cases h with
  | store _ _ hc =>
    simp only [Stmt.evaluated, Stmt.operands, List.mem_singleton, forall_eq]
    exact ⟨_, emits_of_expr hc⟩
  | declare _ _ hc =>
    simp only [Stmt.evaluated, Stmt.operands, List.mem_singleton, forall_eq]
    exact exists_emits_of_initial hc
  | assignAt hc =>
    obtain ⟨ct, ci, cv, ht, hi, hv, -⟩ := assignAt_cases hc
    simp only [Stmt.evaluated, Stmt.operands, List.mem_cons, List.not_mem_nil, or_false]
    rintro e (rfl | rfl | rfl)
    · exact ⟨ct, emits_of_expr ht⟩
    · exact ⟨ci, emits_of_expr hi⟩
    · exact ⟨cv, emits_of_expr hv⟩
  | print hc =>
    obtain ⟨cs, hcs, -⟩ := exists_of_bind_eq_ok hc
    exact (emits_of_exprs hcs).exists_of_mem
  | ifElse hc _ _ =>
    simp only [Stmt.evaluated, Stmt.operands, List.mem_singleton, forall_eq]
    exact ⟨_, emits_of_expr hc⟩
  | whileLoop hc _ =>
    simp only [Stmt.evaluated, Stmt.operands, List.mem_singleton, forall_eq]
    exact ⟨_, emits_of_expr hc⟩
  | freshLoop hhead _ _ => exact exists_emits_of_loopHead hhead _ _
  | loop hhead _ _ => exact exists_emits_of_loopHead hhead _ _
  | ret hc =>
    obtain ⟨hentry, -⟩ | ⟨hentry, ⟨e, ce, rfl, hce, -⟩ | ⟨rfl, -⟩⟩ := ret_cases hc
    · simp [Stmt.evaluated, hentry]
    · simp only [Stmt.evaluated, if_neg hentry, Option.toList_some, List.mem_singleton, forall_eq]
      exact ⟨ce, emits_of_expr hce⟩
    · simp [Stmt.evaluated]
  | eval hc =>
    simp only [Stmt.evaluated, Stmt.operands, List.mem_singleton, forall_eq]
    exact ⟨_, emits_of_expr hc⟩
  | pass => exact List.forall_mem_nil _
  | break_ => exact List.forall_mem_nil _
  | continue_ => exact List.forall_mem_nil _

/-- All that an emitted body evaluates is emitted. -/
theorem EmitsBlock.exists_of_evaluatedNodes {inLoop : Bool} {st st' : Progress} {body : List Stmt}
    {cs : List Cpp.Stmt} (h : f.EmitsBlock inLoop st body cs st') :
    ∀ e ∈ Stmt.evaluatedNodes f.routine body, ∃ c, f.Emits e c := by
  intro e he
  obtain ⟨s, hs, e', he', hpart⟩ := Stmt.mem_evaluatedNodes.1 he
  obtain ⟨c', hc'⟩ := (h.somewhere_of_within s hs).exists_of_evaluated e' he'
  exact hc'.exists_of_parts e hpart

end Frame

end Braces
