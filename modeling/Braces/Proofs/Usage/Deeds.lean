import Braces.Infer.Usage
import Braces.Proofs.Syntax.Bodies

/-!
# What a body does with a variable

The usage of a variable in a body is gathered over its statements and expressions. Here it is told
by single statements and expressions of the body: a variable is a sequence there if it is indexed,
measured, stored into, iterated or passed on to a parameter that is a list, its elements are stored
to by an element assignment or by a function it is passed on to, and it is given another value by an
assignment or a loop.
-/

namespace Braces

/-- The three things that a usage records. -/
inductive Deed where
  | asSequence
  | mutated
  | reassigned

namespace Usage

def has (u : Usage) : Deed → Bool
  | .asSequence => u.asSequence
  | .mutated => u.mutated
  | .reassigned => u.reassigned

@[simp] theorem has_none (d : Deed) : none.has d = false := by
  cases d <;> rfl

@[simp] theorem has_or (a b : Usage) (d : Deed) : (a.or b).has d = (a.has d || b.has d) := by
  cases d <;> rfl

end Usage

namespace Expr

/-- What an expression does with a variable itself, apart from the expressions within it. -/
def deeds (t : Table) (name : String) (d : Deed) : Expr → Bool
  | .index target _ => (Usage.sequenceIf (target.isVar name)).has d
  | .len e => (Usage.sequenceIf (e.isVar name)).has d
  | .call callee args =>
    (List.zipWith (forwarded name) (t.paramsOf callee) args).any (·.has d)
  | _ => false

mutual

theorem has_usage (t : Table) (name : String) (d : Deed) :
    ∀ e : Expr, (e.usage t name).has d = e.parts.any (deeds t name d)
  | .index target position => by
    simp [usage, parts, deeds, has_usage t name d target, has_usage t name d position]
  | .len e => by simp [usage, parts, deeds, has_usage t name d e]
  | .call callee args => by simp [usage, parts, deeds, has_argsUsage t name d _ args]
  | .binary op l r => by simp [usage, parts, deeds, has_usage t name d l, has_usage t name d r]
  | .unary op e => by simp [usage, parts, deeds, has_usage t name d e]
  | .list elements => by simp [usage, parts, deeds, has_listUsage t name d elements]
  | .range start stop step => by
    simp [usage, parts, deeds, has_usage t name d start, has_optionUsage t name d stop,
      has_optionUsage t name d step]
  | .int _ | .float _ | .str _ | .bool _ | .var _ => by simp [usage, parts, deeds]

theorem has_argsUsage (t : Table) (name : String) (d : Deed) :
    ∀ (ps : List Param) (args : List Expr), (argsUsage t name ps args).has d =
      ((List.zipWith (forwarded name) ps args).any (·.has d) || (partsOf args).any (deeds t name d))
  | ps, [] => by simp [argsUsage, partsOf]
  | [], arg :: args => by
    simp [argsUsage, partsOf, has_usage t name d arg, has_argsUsage t name d [] args]
  | p :: ps, arg :: args => by
    simp only [argsUsage, partsOf, Usage.has_or, has_usage t name d arg,
      has_argsUsage t name d ps args, List.zipWith_cons_cons, List.any_cons, List.any_append]
    ac_rfl

theorem has_listUsage (t : Table) (name : String) (d : Deed) :
    ∀ es : List Expr, (listUsage t name es).has d = (partsOf es).any (deeds t name d)
  | [] => by simp [listUsage, partsOf]
  | e :: es => by
    simp [listUsage, partsOf, has_usage t name d e, has_listUsage t name d es]

theorem has_optionUsage (t : Table) (name : String) (d : Deed) :
    ∀ e : Option Expr, (optionUsage t name e).has d = (partsOfOption e).any (deeds t name d)
  | none => by simp [optionUsage, partsOfOption]
  | some e => by simp [optionUsage, partsOfOption, has_usage t name d e]

end

end Expr

namespace Stmt

/-- What a statement does with a variable itself, apart from its expressions and blocks. -/
def deeds (name : String) (d : Deed) : Stmt → Bool
  | .assign target _ => (Usage.reassignedIf (target = name)).has d
  | .assignAt target _ _ => (Usage.storedIf (target.isVar name)).has d
  | .forLoop loopVar iterable _ =>
    (Usage.reassignedIf (loopVar = name)).has d || (Usage.sequenceIf (iterable.isVar name)).has d
  | _ => false

/-- What a statement does with a variable, apart from its blocks. -/
def allDeeds (t : Table) (name : String) (d : Deed) (s : Stmt) : Bool :=
  s.deeds name d || (Expr.partsOf s.operands).any (Expr.deeds t name d)

mutual

theorem has_usage (t : Table) (name : String) (d : Deed) :
    ∀ s : Stmt, (s.usage t name).has d = s.within.any (allDeeds t name d)
  | .assign target value => by
    simp [usage, within, allDeeds, deeds, operands, Expr.partsOf, Expr.has_usage]
  | .assignAt target position value => by
    simp [usage, within, allDeeds, deeds, operands, Expr.partsOf, Expr.has_usage]
  | .print args => by
    simp [usage, within, allDeeds, deeds, operands, Expr.has_listUsage]
  | .ifElse cond body orelse => by
    simp [usage, within, allDeeds, deeds, operands, Expr.partsOf, Expr.has_usage,
      has_blockUsage t name d body, has_elseUsage t name d orelse]
  | .whileLoop cond body => by
    simp [usage, within, allDeeds, deeds, operands, Expr.partsOf, Expr.has_usage,
      has_blockUsage t name d body]
  | .forLoop loopVar iterable body => by
    simp [usage, within, allDeeds, deeds, operands, Expr.partsOf, Expr.has_usage,
      has_blockUsage t name d body, Bool.or_assoc]
  | .ret none => by
    simp [usage, within, allDeeds, deeds, operands, Expr.partsOf, Expr.optionUsage]
  | .ret (some e) => by
    simp [usage, within, allDeeds, deeds, operands, Expr.partsOf, Expr.optionUsage,
      Expr.has_usage]
  | .eval e => by
    simp [usage, within, allDeeds, deeds, operands, Expr.partsOf, Expr.has_usage]
  | .funcDef _ _ _ | .pass | .break_ | .continue_ => by
    simp [usage, within, allDeeds, deeds, operands, Expr.partsOf]

theorem has_blockUsage (t : Table) (name : String) (d : Deed) :
    ∀ body : List Stmt, (blockUsage t name body).has d = (withinBlock body).any (allDeeds t name d)
  | [] => by simp [blockUsage, withinBlock]
  | s :: rest => by
    simp [blockUsage, withinBlock, has_usage t name d s, has_blockUsage t name d rest]

theorem has_elseUsage (t : Table) (name : String) (d : Deed) :
    ∀ orelse : Option (List Stmt),
      (elseUsage t name orelse).has d = (withinElse orelse).any (allDeeds t name d)
  | none => by simp [elseUsage, withinElse]
  | some body => by simp [elseUsage, withinElse, has_blockUsage t name d body]

end

end Stmt

theorem Expr.isVar_iff {e : Expr} {name : String} : e.isVar name = true ↔ e = .var name := by
  cases e <;> simp [isVar]

/-! ### The deeds, one by one -/

/-- The body passes the variable on as it is, as the argument at a position of a call. -/
def Passes (body : List Stmt) (name callee : String) (index : Nat) : Prop :=
  ∃ args, Expr.call callee args ∈ Stmt.nodes body ∧ args[index]? = some (.var name)

/-- The body stores to an element of the variable. -/
def StoresInto (body : List Stmt) (name : String) : Prop :=
  ∃ position value, Stmt.assignAt (.var name) position value ∈ Stmt.withinBlock body

/-- The body indexes, measures, stores into or iterates the variable. -/
def UsesAsSequence (body : List Stmt) (name : String) : Prop :=
  (∃ position, Expr.index (.var name) position ∈ Stmt.nodes body) ∨
    Expr.len (.var name) ∈ Stmt.nodes body ∨
    StoresInto body name ∨
    ∃ loopVar block, Stmt.forLoop loopVar (.var name) block ∈ Stmt.withinBlock body

/-- The body assigns to the variable or lets a loop bind it. -/
def Reassigns (body : List Stmt) (name : String) : Prop :=
  (∃ value, Stmt.assign name value ∈ Stmt.withinBlock body) ∨
    ∃ iterable block, Stmt.forLoop name iterable block ∈ Stmt.withinBlock body

section

variable {t : Table} {body : List Stmt} {name : String}

theorem has_blockUsage_iff (d : Deed) :
    (Stmt.blockUsage t name body).has d = true ↔
      (∃ s ∈ Stmt.withinBlock body, s.deeds name d = true) ∨
        ∃ e ∈ Stmt.nodes body, e.deeds t name d = true := by
  simp only [Stmt.has_blockUsage, List.any_eq_true, Stmt.allDeeds, Bool.or_eq_true, Stmt.mem_nodes]
  grind

theorem any_forwarded_iff {ps : List Param} {args : List Expr} {d : Deed} :
    (List.zipWith (Expr.forwarded name) ps args).any (·.has d) = true ↔
      ∃ (i : Nat) (q : Param), args[i]? = some (Expr.var name) ∧ ps[i]? = some q ∧
        (Expr.forwarded name q (.var name)).has d = true := by
  rw [List.any_eq_true]
  constructor
  · rintro ⟨u, hu, hd⟩
    obtain ⟨i, hi⟩ := List.mem_iff_getElem?.1 hu
    obtain ⟨q, arg, hq, harg, rfl⟩ := List.getElem?_zipWith_eq_some.1 hi
    by_cases hvar : arg.isVar name
    · rw [Expr.isVar_iff.1 hvar] at harg hd
      exact ⟨i, q, harg, hq, hd⟩
    · simp [Expr.forwarded, hvar] at hd
  · rintro ⟨i, q, harg, hq, hd⟩
    exact ⟨_, List.mem_of_getElem? (List.getElem?_zipWith_eq_some.2 ⟨q, _, hq, harg, rfl⟩), hd⟩

/-- The variable is passed on to a parameter that is a list, with a mark of its own. -/
theorem exists_call_deeds_iff {d : Deed} :
    (∃ callee args, Expr.call callee args ∈ Stmt.nodes body ∧
        (Expr.call callee args).deeds t name d = true) ↔
      ∃ callee i q, Passes body name callee i ∧ (t.paramsOf callee)[i]? = some q ∧
        (Expr.forwarded name q (.var name)).has d = true := by
  simp only [Expr.deeds, any_forwarded_iff]
  constructor
  · rintro ⟨callee, args, he, i, q, harg, hq, hd⟩
    exact ⟨callee, i, q, ⟨args, he, harg⟩, hq, hd⟩
  · rintro ⟨callee, i, q, ⟨args, he, harg⟩, hq, hd⟩
    exact ⟨callee, args, he, i, q, harg, hq, hd⟩

theorem forwarded_has_asSequence {q : Param} :
    (Expr.forwarded name q (.var name)).has .asSequence = true ↔ q.ty = .list := by
  by_cases h : q.ty = .list <;> simp [Expr.forwarded, Expr.isVar, h, Usage.has, Usage.none]

theorem forwarded_has_mutated {q : Param} :
    (Expr.forwarded name q (.var name)).has .mutated = true ↔ q.ty = .list ∧ q.mutated = true := by
  by_cases h : q.ty = .list <;> simp [Expr.forwarded, Expr.isVar, h, Usage.has, Usage.none]

theorem forwarded_has_reassigned {q : Param} :
    (Expr.forwarded name q (.var name)).has .reassigned = false := by
  by_cases h : q.ty = .list <;> simp [Expr.forwarded, Expr.isVar, h, Usage.has, Usage.none]

theorem mutated_blockUsage_iff :
    (Stmt.blockUsage t name body).mutated = true ↔ StoresInto body name ∨
      ∃ callee i q, Passes body name callee i ∧ (t.paramsOf callee)[i]? = some q ∧
        q.ty = .list ∧ q.mutated = true := by
  have hs : (∃ s ∈ Stmt.withinBlock body, s.deeds name .mutated = true) ↔ StoresInto body name := by
    constructor
    · rintro ⟨s, hs, hd⟩
      cases s <;> simp [Stmt.deeds, Usage.has, Usage.reassignedIf, Usage.storedIf,
        Usage.sequenceIf, Expr.isVar_iff] at hd
      subst hd
      exact ⟨_, _, hs⟩
    · rintro ⟨position, value, hs⟩
      exact ⟨_, hs, by simp [Stmt.deeds, Usage.has, Usage.storedIf, Expr.isVar_iff]⟩
  have he : (∃ e ∈ Stmt.nodes body, e.deeds t name .mutated = true) ↔
      ∃ callee args, Expr.call callee args ∈ Stmt.nodes body ∧
        (Expr.call callee args).deeds t name .mutated = true := by
    constructor
    · rintro ⟨e, he, hd⟩
      cases e with
      | call callee args => exact ⟨callee, args, he, hd⟩
      | _ => simp [Expr.deeds, Usage.has, Usage.sequenceIf] at hd
    · rintro ⟨callee, args, he, hd⟩
      exact ⟨_, he, hd⟩
  rw [show (Stmt.blockUsage t name body).mutated = (Stmt.blockUsage t name body).has .mutated
    from rfl, has_blockUsage_iff, hs, he, exists_call_deeds_iff]
  simp only [forwarded_has_mutated]

theorem asSequence_blockUsage_iff :
    (Stmt.blockUsage t name body).asSequence = true ↔ UsesAsSequence body name ∨
      ∃ callee i q, Passes body name callee i ∧ (t.paramsOf callee)[i]? = some q ∧
        q.ty = .list := by
  have hs : (∃ s ∈ Stmt.withinBlock body, s.deeds name .asSequence = true) ↔
      StoresInto body name ∨
        ∃ loopVar block, Stmt.forLoop loopVar (.var name) block ∈ Stmt.withinBlock body := by
    constructor
    · rintro ⟨s, hs, hd⟩
      cases s <;> simp [Stmt.deeds, Usage.has, Usage.reassignedIf, Usage.storedIf,
        Usage.sequenceIf, Expr.isVar_iff] at hd
      · subst hd
        exact .inl ⟨_, _, hs⟩
      · subst hd
        exact .inr ⟨_, _, hs⟩
    · rintro (⟨position, value, hs⟩ | ⟨loopVar, block, hs⟩)
      · exact ⟨_, hs, by simp [Stmt.deeds, Usage.has, Usage.storedIf, Expr.isVar_iff]⟩
      · exact ⟨_, hs, by simp [Stmt.deeds, Usage.has, Usage.sequenceIf, Expr.isVar_iff]⟩
  have he : (∃ e ∈ Stmt.nodes body, e.deeds t name .asSequence = true) ↔
      (∃ position, Expr.index (.var name) position ∈ Stmt.nodes body) ∨
        Expr.len (.var name) ∈ Stmt.nodes body ∨
        ∃ callee args, Expr.call callee args ∈ Stmt.nodes body ∧
          (Expr.call callee args).deeds t name .asSequence = true := by
    constructor
    · rintro ⟨e, he, hd⟩
      cases e with
      | call callee args => exact .inr (.inr ⟨callee, args, he, hd⟩)
      | index target position =>
        obtain rfl := Expr.isVar_iff.1 hd
        exact .inl ⟨position, he⟩
      | len e =>
        obtain rfl := Expr.isVar_iff.1 hd
        exact .inr (.inl he)
      | _ => simp [Expr.deeds] at hd
    · rintro (⟨position, he⟩ | he | ⟨callee, args, he, hd⟩)
      · exact ⟨_, he, Expr.isVar_iff.2 rfl⟩
      · exact ⟨_, he, Expr.isVar_iff.2 rfl⟩
      · exact ⟨_, he, hd⟩
  rw [show (Stmt.blockUsage t name body).asSequence = (Stmt.blockUsage t name body).has .asSequence
    from rfl, has_blockUsage_iff, hs, he, exists_call_deeds_iff, UsesAsSequence]
  simp only [forwarded_has_asSequence]
  ac_nf

theorem reassigned_blockUsage_iff :
    (Stmt.blockUsage t name body).reassigned = true ↔ Reassigns body name := by
  have he : ¬∃ e ∈ Stmt.nodes body, e.deeds t name .reassigned = true := by
    rintro ⟨e, he, hd⟩
    cases e with
    | call callee args =>
      obtain ⟨i, q, -, -, hq⟩ := any_forwarded_iff.1 hd
      simp [forwarded_has_reassigned] at hq
    | _ => simp [Expr.deeds, Usage.has, Usage.sequenceIf] at hd
  rw [show (Stmt.blockUsage t name body).reassigned = (Stmt.blockUsage t name body).has .reassigned
    from rfl, has_blockUsage_iff, or_iff_left he]
  constructor
  · rintro ⟨s, hs, hd⟩
    cases s <;> simp [Stmt.deeds, Usage.has, Usage.reassignedIf, Usage.storedIf,
      Usage.sequenceIf] at hd
    · subst hd
      exact .inl ⟨_, hs⟩
    · subst hd
      exact .inr ⟨_, _, hs⟩
  · rintro (⟨value, hs⟩ | ⟨iterable, block, hs⟩)
    · exact ⟨_, hs, by simp [Stmt.deeds, Usage.has, Usage.reassignedIf]⟩
    · exact ⟨_, hs, by simp [Stmt.deeds, Usage.has, Usage.reassignedIf]⟩

end

end Braces
